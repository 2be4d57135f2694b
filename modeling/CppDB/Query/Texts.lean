import CppDB.Query.Lexer.Stream
import CppDB.Query.Parser.Model

/-! Texts without a line feed. From a query on one line the lexer and the parser make
tokens, statements and error texts that are on one line as well. -/
namespace CppDB

/-- The text is on one line. -/
def Clean (text : Str) : Prop := '\n' ∉ text

namespace Clean

variable {text text' : Str}

theorem nil : Clean [] := List.not_mem_nil

theorem cons {c : Char} : Clean (c :: text) ↔ c ≠ '\n' ∧ Clean text := by
  simp [Clean, eq_comm]

theorem append : Clean (text ++ text') ↔ Clean text ∧ Clean text' := by
  simp [Clean]

theorem of_subset (clean : Clean text) (inside : text' ⊆ text) : Clean text' :=
  fun there => clean (inside there)

theorem takeWhile (clean : Clean text) (p : Char → Bool) : Clean (text.takeWhile p) :=
  clean.of_subset (List.takeWhile_prefix p).subset

/-- A text put between two others. -/
theorem between {front behind : Str} (clean : Clean front) (good : Clean text)
    (clean' : Clean behind) : Clean (front ++ text ++ behind) :=
  append.mpr ⟨append.mpr ⟨clean, good⟩, clean'⟩

end Clean

instance cleanDecidable (text : Str) : Decidable (Clean text) :=
  inferInstanceAs (Decidable ('\n' ∉ text))

theorem clean_decimal (n : Nat) : Clean (decimal n) := by
  rw [decimal]
  split
  · decide
  · intro there
    rw [List.mem_reverse] at there
    obtain ⟨digit, listed, is⟩ := List.mem_map.mp there
    have small : digit < 10 := Nat.digits_lt_base (by decide) listed
    interval_cases digit <;> cases is

theorem clean_numeral (n : Int64) : Clean (numeral n) := by
  rw [numeral]
  split
  · exact Clean.cons.mpr ⟨by decide, clean_decimal _⟩
  · exact clean_decimal _

theorem clean_dataType (type : DataType) : Clean type.toString := by
  cases type <;> decide

theorem clean_intercalate {sep : Str} (clean : Clean sep) {texts : List Str}
    (all : ∀ text ∈ texts, Clean text) : Clean (sep.intercalate texts) := by
  induction texts with
  | nil => exact Clean.nil
  | cons text texts ih =>
    obtain ⟨first, others⟩ := List.forall_mem_cons.mp all
    cases texts with
    | nil => simpa [List.intercalate] using first
    | cons second texts =>
      have unfolds : sep.intercalate (text :: second :: texts) =
          text ++ sep ++ sep.intercalate (second :: texts) := by
        simp [List.intercalate]
      rw [unfolds, Clean.append, Clean.append]
      exact ⟨⟨first, clean⟩, ih others⟩

/-! ### The lexer -/

namespace Lexer

variable {start : Nat} {c q : Char} {rest text : Str}

theorem clean_stringBody {content : Str} (clean : Clean rest)
    (closed : stringBody q rest = some (content, text)) : Clean content := by
  fun_induction stringBody q rest generalizing content with
  | case1 => cases closed
  | case2 =>
    cases closed
    exact Clean.nil
  | case3 behind ih =>
    obtain ⟨⟨content', text'⟩, inner, same⟩ := Option.map_eq_some_iff.mp closed
    cases same
    obtain ⟨other, -, clean⟩ := by simpa only [Clean.cons] using clean
    exact Clean.cons.mpr ⟨other, ih clean inner⟩
  | case4 =>
    cases closed
    exact Clean.nil
  | case5 d behind apart ih =>
    obtain ⟨⟨content', text'⟩, inner, same⟩ := Option.map_eq_some_iff.mp closed
    cases same
    obtain ⟨other, clean⟩ := Clean.cons.mp clean
    exact Clean.cons.mpr ⟨other, ih clean inner⟩

theorem clean_wordToken {word : Str} (clean : Clean word) (start : Nat) :
    Clean (wordToken word start).value := by
  have listed : ∀ keyword ∈ keywords, Clean keyword := by decide
  simp only [wordToken]
  split
  case isTrue keyword => exact listed _ (by simpa [isKeyword] using keyword)
  case isFalse => exact clean

/-- The errors of the lexer end with the position they are at. -/
theorem clean_position {text : Str} (clean : Clean text) (start : Nat) :
    Clean (text ++ decimal start) :=
  Clean.append.mpr ⟨clean, clean_decimal start⟩

theorem clean_of_scanToken_error {e : Exn} (clean : Clean (c :: rest))
    (fails : scanToken start c rest = .error e) : Clean e.message := by
  have round := scanToken_round start c rest
  rw [fails] at round
  cases round with
  | unclosed => exact clean_position (by decide +kernel) start
  | bang => exact clean_position (by decide +kernel) start
  | unexpected =>
    have single : Clean [c] := Clean.cons.mpr ⟨(Clean.cons.mp clean).1, Clean.nil⟩
    exact clean_position (Clean.between (by decide +kernel) single (by decide +kernel)) start

/-- A round on one line makes a token on one line. -/
theorem clean_of_scanToken {token : Option Token} (clean : Clean (c :: rest))
    (scans : scanToken start c rest = .ok (token, text)) : ∀ t ∈ token, Clean t.value := by
  obtain ⟨first, behind⟩ := Clean.cons.mp clean
  have single : Clean [c] := Clean.cons.mpr ⟨first, Clean.nil⟩
  have round := scanToken_round start c rest
  rw [scans] at round
  cases round with
  | blank => exact nofun
  | word =>
    rintro _ ⟨⟩
    exact clean_wordToken (Clean.cons.mpr ⟨first, behind.takeWhile _⟩) start
  | number =>
    rintro _ ⟨⟩
    exact Clean.cons.mpr ⟨first, behind.takeWhile _⟩
  | string _ closed =>
    rintro _ ⟨⟩
    exact clean_stringBody behind closed
  | paired =>
    rintro _ ⟨⟩
    exact Clean.cons.mpr ⟨first, by decide⟩
  | operator | mark =>
    rintro _ ⟨⟩
    exact single

theorem clean_tokenizeFrom {rounds : Nat} (clean : Clean text) :
    (∀ e, tokenizeFrom rounds start text = some (.error e) → Clean e.message) ∧
      ∀ tokens, tokenizeFrom rounds start text = some (.ok tokens) →
        ∀ t ∈ tokens, Clean t.value := by
  induction rounds generalizing start text with
  | zero =>
    cases text with
    | nil =>
      constructor
      · rintro e ⟨⟩
      · rintro tokens ⟨⟩
        exact List.forall_mem_singleton.mpr Clean.nil
    | cons =>
      constructor
      · rintro e ⟨⟩
      · rintro tokens ⟨⟩
  | succ rounds ih =>
    cases text with
    | nil =>
      constructor
      · rintro e ⟨⟩
      · rintro tokens ⟨⟩
        exact List.forall_mem_singleton.mpr Clean.nil
    | cons c rest =>
      rw [tokenizeFrom]
      cases scans : scanToken start c rest with
      | error e =>
        constructor
        · rintro _ ⟨⟩
          exact clean_of_scanToken_error clean scans
        · rintro tokens ⟨⟩
      | ok scanned =>
        obtain ⟨token, text⟩ := scanned
        have inside := (scanToken_spec scans).1.subset
        have behind : Clean text := (Clean.cons.mp clean).2.of_subset inside
        obtain ⟨throws, makes⟩ := @ih (start + (rest.length + 1 - text.length)) text behind
        constructor
        · intro e fails
          obtain ⟨answer, returns, same⟩ := Option.map_eq_some_iff.mp fails
          cases answer with
          | error e' =>
            cases same
            exact throws _ returns
          | ok tokens => cases same
        · intro tokens lexes t listed
          obtain ⟨answer, returns, same⟩ := Option.map_eq_some_iff.mp lexes
          cases answer with
          | error e' => cases same
          | ok tokens' =>
            cases same
            rcases List.mem_append.mp listed with listed | listed
            · exact clean_of_scanToken clean scans t (Option.mem_toList.mp listed)
            · exact makes tokens' returns t listed

end Lexer

/-! ### The parser -/

/-- The column and the literal are on one line. -/
def CleanPair (pair : Str × Str) : Prop := Clean pair.1 ∧ Clean pair.2

def CleanClause (clause : WhereClause) : Prop := Clean clause.column ∧ Clean clause.value

/-- All names and literals of the statement are on one line. -/
def CleanStatement : Statement → Prop
  | .create stmt => Clean stmt.table ∧ ∀ column ∈ stmt.columns, Clean column.name
  | .drop stmt => Clean stmt.table
  | .insert stmt => Clean stmt.table ∧ (∀ column ∈ stmt.columns, Clean column) ∧
      ∀ value ∈ stmt.values, Clean value
  | .select stmt => Clean stmt.table ∧ (∀ column ∈ stmt.columns, Clean column) ∧
      ∀ clause ∈ stmt.conditions, CleanClause clause
  | .update stmt => Clean stmt.table ∧ (∀ pair ∈ stmt.assignments, CleanPair pair) ∧
      ∀ clause ∈ stmt.conditions, CleanClause clause
  | .delete stmt => Clean stmt.table ∧ ∀ clause ∈ stmt.conditions, CleanClause clause

namespace Parser

open Descent

variable {α : Type} {post : α → Prop}

/-- A text that quotes another one. -/
theorem clean_quoting {front text : Str} (clean : Clean front) (good : Clean text) :
    Clean (front ++ text ++ "'".toList) :=
  clean.between good (by decide)

/-- From tokens on one line come an error on one line, or a value that satisfies the condition. -/
def Tidy (p : ParseM α) (post : α → Prop) : Prop :=
  Ensures (fun token => Clean token.value) (fun e => Clean e.what) p post

theorem fail_tidy {message : Str} (clean : Clean message) : Tidy (fail message : ParseM α) post := by
  apply Ensures.peek.bind
  intro found good
  apply Ensures.raise
  apply Clean.append.mpr
  constructor
  · exact Clean.append.mpr ⟨Clean.append.mpr ⟨clean, by decide⟩, clean_decimal _⟩
  · split
    · decide
    · exact clean_quoting (by decide) good

theorem demand_tidy (test : Token → Bool) {message : Str} (clean : Clean message) :
    Tidy (demand test message) fun token => Clean token.value := by
  apply Ensures.peek.bind
  intro token _
  apply Ensures.ite
  · exact Ensures.advance _
  · exact fail_tidy clean

theorem clean_expected {what : Str} (clean : Clean what) : Clean (expected what) :=
  Clean.append.mpr ⟨by decide, clean⟩

theorem expect_tidy (type : TokenType) {what : Str} (clean : Clean what) :
    Tidy (expect type what) fun token => Clean token.value :=
  demand_tidy _ (clean_expected clean)

theorem expectKeyword_tidy {keyword : Str} (clean : Clean keyword) :
    Tidy (expectKeyword keyword) fun token => Clean token.value :=
  demand_tidy _ (clean_expected clean)

theorem expectPunctuation_tidy {c : Char} (other : c ≠ '\n') :
    Tidy (expectPunctuation c) fun token => Clean token.value :=
  demand_tidy _ (clean_expected (Clean.cons.mpr ⟨by decide, Clean.cons.mpr ⟨other, by decide⟩⟩))

theorem expectEnd_tidy : Tidy expectEnd fun _ => True := by
  apply Ensures.peek.bind
  intro token good
  apply Ensures.ite
  · exact Ensures.pure trivial
  · exact fail_tidy (clean_quoting (by decide) good)

theorem expectName_tidy {what : Str} (clean : Clean what) : Tidy (expectName what) Clean := by
  apply (expect_tidy .identifier clean).bind
  intro token good
  exact Ensures.pure good

theorem parseLiteral_tidy : Tidy parseLiteral Clean := by
  apply (demand_tidy _ (by decide)).bind
  intro token good
  exact Ensures.pure good

theorem parseColumnDef_tidy : Tidy parseColumnDef fun column => Clean column.name := by
  apply (expectName_tidy (by decide)).bind
  intro name good
  have typed : Tidy parseColumnType fun _ => True := by
    apply (expect_tidy .keyword (by decide)).bind
    intro token good'
    split
    · exact fail_tidy (clean_quoting (by decide) good')
    · exact Ensures.pure trivial
  apply typed.bind
  intro type _
  exact Ensures.pure good

theorem expectEqual_tidy : Tidy expectEqual fun _ => True := by
  apply (expect_tidy .operator (by decide)).bind
  intro token _
  apply Ensures.ite
  · exact fail_tidy (by decide)
  · exact Ensures.pure trivial

theorem parseAssignment_tidy : Tidy parseAssignment CleanPair := by
  apply (expectName_tidy (by decide)).bind
  intro column good
  apply expectEqual_tidy.followedBy
  apply parseLiteral_tidy.bind
  intro literal good'
  exact Ensures.pure ⟨good, good'⟩

theorem parseCompareOp_tidy : Tidy parseCompareOp fun _ => True := by
  apply (expect_tidy .operator (by decide)).bind
  intro token good
  have unknown : Clean (SyntaxError.unknownOperator token).what :=
    Clean.append.mpr ⟨Clean.between (by decide) good (by decide), clean_decimal _⟩
  rw [compareOpFromToken]
  split_ifs
  all_goals first
    | exact Ensures.pure trivial
    | exact Ensures.raise unknown

theorem parseCondition_tidy : Tidy parseCondition CleanClause := by
  apply (expectName_tidy (by decide)).bind
  intro column good
  apply parseCompareOp_tidy.bind
  intro op _
  apply parseLiteral_tidy.bind
  intro literal good'
  exact Ensures.pure ⟨good, good'⟩

theorem parseOptionalWhere_tidy :
    Tidy parseOptionalWhere fun conditions => ∀ clause ∈ conditions, CleanClause clause := by
  apply Ensures.peek.bind
  intro token _
  apply Ensures.ite
  · apply (Ensures.advance _).followedBy
    exact parseCondition_tidy.separated
  · exact Ensures.pure nofun

theorem parseCreate_tidy : Tidy parseCreate fun stmt => CleanStatement (.create stmt) := by
  apply (expectKeyword_tidy (by decide)).followedBy
  apply (expectKeyword_tidy (by decide)).followedBy
  apply (expectName_tidy (by decide)).bind
  intro table good
  apply (expectPunctuation_tidy (by decide)).followedBy
  apply parseColumnDef_tidy.separated.bind
  intro columns all
  apply (expectPunctuation_tidy (by decide)).followedBy
  apply expectEnd_tidy.followedBy
  exact Ensures.pure ⟨good, all⟩

theorem parseDrop_tidy : Tidy parseDrop fun stmt => CleanStatement (.drop stmt) := by
  apply (expectKeyword_tidy (by decide)).followedBy
  apply (expectKeyword_tidy (by decide)).followedBy
  apply (expectName_tidy (by decide)).bind
  intro table good
  apply expectEnd_tidy.followedBy
  exact Ensures.pure good

theorem parseInsert_tidy : Tidy parseInsert fun stmt => CleanStatement (.insert stmt) := by
  apply (expectKeyword_tidy (by decide)).followedBy
  apply (expectKeyword_tidy (by decide)).followedBy
  apply (expectName_tidy (by decide)).bind
  intro table good
  apply (expectPunctuation_tidy (by decide)).followedBy
  apply (expectName_tidy (by decide)).separated.bind
  intro columns named
  apply (expectPunctuation_tidy (by decide)).followedBy
  apply (expectKeyword_tidy (by decide)).followedBy
  apply (expectPunctuation_tidy (by decide)).followedBy
  apply parseLiteral_tidy.separated.bind
  intro values all
  apply (expectPunctuation_tidy (by decide)).followedBy
  apply expectEnd_tidy.followedBy
  split
  · exact Ensures.pure ⟨good, named, all⟩
  · apply Ensures.raise
    apply Clean.between _ (clean_decimal _) (by decide)
    exact Clean.between (by decide) (clean_decimal _) (by decide)

theorem parseSelection_tidy :
    Tidy parseSelection fun columns => ∀ column ∈ columns, Clean column := by
  apply Ensures.peek.bind
  intro token _
  apply Ensures.ite
  · apply (Ensures.advance _).followedBy
    exact Ensures.pure nofun
  · exact (expectName_tidy (by decide)).separated

theorem parseSelect_tidy : Tidy parseSelect fun stmt => CleanStatement (.select stmt) := by
  apply (expectKeyword_tidy (by decide)).followedBy
  apply parseSelection_tidy.bind
  intro columns named
  apply (expectKeyword_tidy (by decide)).followedBy
  apply (expectName_tidy (by decide)).bind
  intro table good
  apply parseOptionalWhere_tidy.bind
  intro conditions all
  apply expectEnd_tidy.followedBy
  exact Ensures.pure ⟨good, named, all⟩

theorem parseUpdate_tidy : Tidy parseUpdate fun stmt => CleanStatement (.update stmt) := by
  apply (expectKeyword_tidy (by decide)).followedBy
  apply (expectName_tidy (by decide)).bind
  intro table good
  apply (expectKeyword_tidy (by decide)).followedBy
  apply parseAssignment_tidy.separated.bind
  intro assignments pairs
  apply parseOptionalWhere_tidy.bind
  intro conditions all
  apply expectEnd_tidy.followedBy
  exact Ensures.pure ⟨good, pairs, all⟩

theorem parseDelete_tidy : Tidy parseDelete fun stmt => CleanStatement (.delete stmt) := by
  apply (expectKeyword_tidy (by decide)).followedBy
  apply (expectKeyword_tidy (by decide)).followedBy
  apply (expectName_tidy (by decide)).bind
  intro table good
  apply parseOptionalWhere_tidy.bind
  intro conditions all
  apply expectEnd_tidy.followedBy
  exact Ensures.pure ⟨good, all⟩

theorem parseStatement_tidy : Tidy parseStatement CleanStatement := by
  apply Ensures.peek.bind
  intro first good
  apply Ensures.ite
  · exact fail_tidy (by decide)
  apply Ensures.ite
  · exact parseCreate_tidy.bind fun stmt clean => Ensures.pure clean
  apply Ensures.ite
  · exact parseDrop_tidy.bind fun stmt clean => Ensures.pure clean
  apply Ensures.ite
  · exact parseInsert_tidy.bind fun stmt clean => Ensures.pure clean
  apply Ensures.ite
  · exact parseSelect_tidy.bind fun stmt clean => Ensures.pure clean
  apply Ensures.ite
  · exact parseUpdate_tidy.bind fun stmt clean => Ensures.pure clean
  apply Ensures.ite
  · exact parseDelete_tidy.bind fun stmt clean => Ensures.pure clean
  · exact fail_tidy (clean_quoting (by decide) good)

theorem clean_parse {tokens : List Token} (clean : ∀ t ∈ tokens, Clean t.value) :
    (∀ e, parse tokens = some (.error e) → Clean e.what) ∧
      ∀ stmt, parse tokens = some (.ok stmt) → CleanStatement stmt := by
  obtain ⟨throws, returns⟩ := parseStatement_tidy tokens clean
  constructor
  · intro e fails
    obtain ⟨answer, run, same⟩ := Option.map_eq_some_iff.mp fails
    cases answer with
    | error e' =>
      cases same
      exact throws _ run
    | ok answer => cases same
  · intro stmt parses
    obtain ⟨answer, run, same⟩ := Option.map_eq_some_iff.mp parses
    cases answer with
    | error e' => cases same
    | ok answer =>
      obtain ⟨stmt', rest⟩ := answer
      cases same
      exact (returns stmt' rest run).1

end Parser
end CppDB
