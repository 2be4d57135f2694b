import CppDB.Lib.Blame
import CppDB.Query.Lexer.Lexemes
import CppDB.Query.Parser.Correctness

/-! Where each parsing function reports its errors: at the token it refuses, but for the two
that step over a token before they judge it, a column type and the `=` of an assignment. -/
namespace CppDB.Grammar

open Descent

/-- Spelling some value or other. -/
def any {α : Type} (grammar : α → List Token → Prop) (tokens : List Token) : Prop :=
  ∃ a, grammar a tokens

/-- The statement grammar, but for the counts of an `INSERT`. -/
def wellFormed (tokens : List Token) : Prop :=
  (∃ stmt, statement stmt tokens) ∨
    sequence [word "INSERT", word "INTO", any identifier, mark '(', any (commaList identifier),
      mark ')', word "VALUES", mark '(', any (commaList literal), mark ')'] tokens

/-- What follows the grammar, and has no end token in it. -/
def Sentence (tokens : List Token) : Prop :=
  wellFormed tokens ∧ ∀ t ∈ tokens, t.isEnd = false

/-- A token list that ends in its only end token, with a sentence before it. -/
def Valid (tokens : List Token) : Prop :=
  ∃ body last, tokens = body ++ [last] ∧ last.isEnd = true ∧ Sentence body

/-- The tokens can be continued to a valid statement. -/
def Viable (tokens : List Token) : Prop := ∃ rest, Valid (tokens ++ rest)

theorem viable_of_sentence {tokens more : List Token} (sentence : Sentence (tokens ++ more)) :
    Viable tokens :=
  ⟨more ++ [⟨.endOfInput, [], 0⟩], tokens ++ more, _, (List.append_assoc ..).symm, rfl, sentence⟩

theorem Viable.of_append {tokens more : List Token} (viable : Viable (tokens ++ more)) :
    Viable tokens := by
  obtain ⟨rest, valid⟩ := viable
  exact ⟨more ++ rest, by rwa [← List.append_assoc]⟩

end CppDB.Grammar

namespace CppDB.Parser

open Descent Grammar

variable {α : Type}

/-- The token a syntax error is placed at. -/
def SyntaxError.token : SyntaxError → Option Token
  | .unexpected _ found => some found
  | .unknownOperator token => some token
  | .countMismatch _ _ => none

def intWord : Token := ⟨.keyword, "INT".toList, 0⟩

def equals : Token := ⟨.operator, "=".toList, 0⟩

/-- Every keyword goes as a column type, and every operator as an equals sign, until it is
looked at closely. -/
def Alike (t t' : Token) : Prop :=
  t.type = .keyword ∧ t' = intWord ∨ t.type = .operator ∧ t' = equals

theorem Alike.type {t t' : Token} (like : Alike t t') : t'.type = t.type := by
  rcases like with ⟨is, rfl⟩ | ⟨is, rfl⟩
  · exact is.symm
  · exact is.symm

def reporting : Reporting Token SyntaxError where
  isEnd := Token.isEnd
  placed e t := e.token = some t
  good t := t.type = .operator → t.value ∈ Lexer.operators
  alike := Alike
  ends like := by rw [Token.isEnd, Token.isEnd, like.type]

/-! ### Single tokens -/

/-- The common shape of the `expect` functions reports the token it refuses. -/
theorem demand_blames {test : Token → Bool} (message : Str)
    (inner : ∀ t, test t = true → t.isEnd = false)
    (coarse : ∀ t t', Alike t t' → test t = false → test t' = false)
    (sample : ∃ t, test t = true) :
    Blames reporting (demand test message) fun u => ∃ t, u = [t] ∧ test t = true := by
  have accepts : ∀ t rest, test t = true →
      demand test message (t :: rest) = some (.ok (id t, rest)) := by
    intro t rest passes
    rw [demand, peek_bind, if_pos passes]
    exact advance_of_inner (inner t passes) rest
  refine Blames.token accepts (fun t rest refused => ?_) inner coarse sample
  rw [demand, peek_bind, refused, if_neg Bool.false_ne_true]
  exact ⟨_, rfl, rfl⟩

theorem coarse_keyword {keyword : String} (other : keyword ≠ "INT") (t t' : Token)
    (like : Alike t t') (_ : isKeyword keyword.toList t = false) :
    isKeyword keyword.toList t' = false := by
  rcases like with ⟨-, rfl⟩ | ⟨-, rfl⟩
  · rw [← Bool.not_eq_true, isKeyword_iff]
    rintro ⟨-, same⟩
    exact other (String.toList_inj.mp same).symm
  · rfl

theorem expectKeyword_blames {keyword : String} (other : keyword ≠ "INT") :
    Blames reporting (expectKeyword keyword.toList) (word keyword) :=
  demand_blames _ isEnd_of_keyword (coarse_keyword other)
    ⟨⟨.keyword, keyword.toList, 0⟩, by simp [isKeyword]⟩

theorem not_punctuation_of_alike {c : Char} {t t' : Token} (like : Alike t t') :
    isPunctuation c t' = false := by
  rcases like with ⟨-, rfl⟩ | ⟨-, rfl⟩ <;> rfl

theorem expectPunctuation_blames (c : Char) :
    Blames reporting (expectPunctuation c) (mark c) :=
  demand_blames _ isEnd_of_punctuation (fun _ _ like _ => not_punctuation_of_alike like)
    ⟨⟨.punctuation, [c], 0⟩, by simp [isPunctuation]⟩

/-- A test of the type alone does not tell tokens that are alike. -/
theorem coarse_of_type {test : TokenType → Bool} (t t' : Token) (like : Alike t t')
    (fails : test t.type = false) : test t'.type = false := by
  rw [like.type]
  exact fails

theorem expectName_blames (what : Str) :
    Blames reporting (expectName what) (any identifier) := by
  have takes : Blames reporting (expect .identifier what)
      fun u => ∃ t, u = [t] ∧ decide (t.type = .identifier) = true := by
    refine demand_blames _ (fun t is => isEnd_of_type (of_decide_eq_true is) (by simp)) ?_
      ⟨⟨.identifier, [], 0⟩, rfl⟩
    exact @coarse_of_type fun type => decide (type = .identifier)
  refine (takes.map Token.value).congr fun u => ?_
  simp [any, identifier, spelled]

theorem parseLiteral_blames : Blames reporting parseLiteral (any literal) := by
  have takes : Blames reporting
      (demand (fun token => token.type = .number || token.type = .string) literalExpected)
      fun u => ∃ t : Token, u = [t] ∧ (t.type = .number || t.type = .string) = true := by
    refine demand_blames _ (fun t is => ?_) ?_ ⟨⟨.number, [], 0⟩, rfl⟩
    · obtain is | is := Bool.or_eq_true_iff.mp is
      · exact isEnd_of_type (of_decide_eq_true is) (by simp)
      · exact isEnd_of_type (of_decide_eq_true is) (by simp)
    · exact @coarse_of_type fun type => type = .number || type = .string
  refine (takes.map Token.value).congr fun u => ?_
  simp [any, literal, spelled]

/-- A token that is taken by its type and judged by its value once it has been stepped
over. -/
theorem judged_blames (verdict : Token → Option α) {type : TokenType} {what : Str}
    {judge : Token → ParseM α} {grammar : List Token → Prop} (inner : type ≠ .endOfInput)
    (accepts : ∀ t a, verdict t = some a → judge t = pure a)
    (rejects : ∀ t rest answer, verdict t = none → judge t rest ≠ some (.ok answer))
    (late : ∀ t, reporting.good t → t.type = type → verdict t = none →
      (∀ n rest, ∃ e, judge t (n :: rest) = some (.error e) ∧ e.token = some n) ∧
        ∃ t', Alike t t' ∧ (verdict t').isSome = true)
    (sample : ∃ t : Token, t.type = type ∧ (verdict t).isSome = true)
    (spells : ∀ u, grammar u ↔ ∃ t, u = [t] ∧ t.type = type ∧ (verdict t).isSome = true) :
    Blames reporting (expect type what >>= judge) grammar := by
  have takes : ∀ t rest, t.type = type →
      (expect type what >>= judge) (t :: rest) = judge t rest := by
    intro t rest is
    refine bind_ok ?_
    rw [expect, demand, peek_bind, if_pos (decide_eq_true is)]
    exact advance_of_inner (isEnd_of_type is inner) rest
  have blames : Blames reporting (expect type what >>= judge) fun u =>
      ∃ t, u = [t] ∧ decide (t.type = type) = true ∧ (verdict t).isSome = true := by
    refine .judged ?_ ?_ ?_ ?_ ?_ ?_ ?_
    · intro t a rest is judged
      rw [takes t rest (of_decide_eq_true is), accepts t a judged]
      rfl
    · intro t rest fails
      refine ⟨.unexpected (expected what) t, bind_error ?_, rfl⟩
      rw [expect, demand, peek_bind, if_neg (by rw [fails]; exact Bool.false_ne_true)]
      rfl
    · intro t rest answer is judged
      rw [takes t rest (of_decide_eq_true is)]
      exact rejects t rest answer judged
    · intro t good is judged
      obtain ⟨misplaces, t', like, judged'⟩ := late t good (of_decide_eq_true is) judged
      refine ⟨?_, t', like, ?_, judged'⟩
      · intro n rest
        rw [takes t _ (of_decide_eq_true is)]
        exact misplaces n rest
      · rw [like.type]
        exact is
    · exact fun t is => isEnd_of_type (of_decide_eq_true is) inner
    · exact @coarse_of_type fun other => decide (other = type)
    · obtain ⟨t, is, judged⟩ := sample
      exact ⟨t, decide_eq_true is, judged⟩
  exact blames.congr fun u => by simp [spells]

theorem parseColumnType_blames : Blames reporting parseColumnType (any typeName) := by
  refine judged_blames (fun t => dataTypeFromString t.value) (by simp) ?_ ?_ ?_
    ⟨intWord, rfl, rfl⟩ ?_
  · intro t type known
    simp only [known]
  · intro t rest answer unknown returns
    simp only [unknown] at returns
    cases rest <;> cases returns
  · intro t _ is unknown
    refine ⟨fun n rest => ?_, intWord, .inl ⟨is, rfl⟩, rfl⟩
    simp only [unknown]
    exact ⟨_, rfl, rfl⟩
  · intro u
    simp only [any, typeName_iff, Option.isSome_iff_exists]
    tauto

theorem expectEqual_blames : Blames reporting expectEqual (operator "=".toList) := by
  refine judged_blames (fun t => if t.value = ['='] then some () else none) (by simp) ?_ ?_ ?_
    ⟨equals, rfl, rfl⟩ ?_
  · intro t _ equal
    split_ifs at equal with is
    simp [is]
  · intro t rest answer other returns
    have differs : t.value ≠ ['='] := by simpa using other
    rw [if_pos differs] at returns
    cases rest <;> cases returns
  · intro t _ is other
    have differs : t.value ≠ ['='] := by simpa using other
    refine ⟨fun n rest => ?_, equals, .inr ⟨is, rfl⟩, rfl⟩
    rw [if_pos differs]
    exact ⟨_, rfl, rfl⟩
  · intro u
    simp [operator, spelled]

/-- The comparison an operator stands for. -/
def comparison (value : Str) : Option CompareOp :=
  [.eq, .ne, .lt, .le, .gt, .ge].find? fun op => value = symbol op

theorem comparison_eq_some {value : Str} {op : CompareOp} :
    comparison value = some op ↔ value = symbol op := by
  constructor
  · intro found
    simpa using List.find?_some found
  · rintro rfl
    cases op <;> rfl

theorem comparison_eq_none {value : Str} :
    comparison value = none ↔ ∀ op, value ≠ symbol op := by
  rw [Option.eq_none_iff_forall_ne_some]
  exact forall_congr' fun op => not_congr comparison_eq_some

theorem compareOpFromToken_eq (t : Token) :
    compareOpFromToken t =
      match comparison t.value with
      | some op => pure op
      | none => raise (.unknownOperator t) := by
  cases compared : comparison t.value with
  | some op =>
    rw [compareOpFromToken, comparison_eq_some.mp compared]
    cases op <;> rfl
  | none =>
    have differs := comparison_eq_none.mp compared
    rw [compareOpFromToken]
    split_ifs with eq ne lt le gt ge
    · exact absurd eq (differs .eq)
    · exact absurd ne (differs .ne)
    · exact absurd lt (differs .lt)
    · exact absurd le (differs .le)
    · exact absurd gt (differs .gt)
    · exact absurd ge (differs .ge)
    · rfl

/-- The lexer makes no operator that compares nothing, so none is judged too late here. -/
theorem parseCompareOp_blames :
    Blames reporting parseCompareOp (any fun op => operator (symbol op)) := by
  have listed : ∀ value ∈ Lexer.operators, ∃ op, value = symbol op := by
    simp only [Lexer.operators, List.map_cons, List.map_nil, List.forall_mem_cons]
    exact ⟨⟨.eq, rfl⟩, ⟨.ne, rfl⟩, ⟨.lt, rfl⟩, ⟨.le, rfl⟩, ⟨.gt, rfl⟩, ⟨.ge, rfl⟩, by simp⟩
  refine judged_blames (fun t => comparison t.value) (by simp) ?_ ?_ ?_ ⟨equals, rfl, rfl⟩ ?_
  · intro t op compared
    rw [compareOpFromToken_eq, compared]
  · intro t rest answer unknown returns
    rw [compareOpFromToken_eq, unknown] at returns
    cases returns
  · intro t good is unknown
    obtain ⟨op, same⟩ := listed t.value (good is)
    exact absurd same (comparison_eq_none.mp unknown op)
  · intro u
    simp only [any, operator, spelled, List.mem_singleton, Option.isSome_iff_exists,
      comparison_eq_some]
    tauto

theorem expectEnd_blames : Blames reporting expectEnd (· = []) := by
  have accepts : ∀ t rest, t.isEnd = true → expectEnd (t :: rest) = some (.ok ((), t :: rest)) := by
    intro t rest last
    rw [expectEnd, peek_bind, if_pos last]
    rfl
  refine .sentinel accepts fun t rest more => ?_
  refine ⟨.unexpected (trailing t) t, ?_, rfl⟩
  have inner : t.isEnd = false := more
  rw [expectEnd, peek_bind, inner, if_neg Bool.false_ne_true]
  rfl

/-! ### Lists and clauses -/

theorem commaSeparated_blames {item : ParseM α} {grammar : α → List Token → Prop}
    (reads : Reads Token.isEnd item grammar fun _ => True)
    (blames : Blames reporting item (any grammar)) :
    Blames reporting (commaSeparated item) (any (commaList grammar)) :=
  blames.separated reads isEnd_of_punctuation fun _ _ like _ => not_punctuation_of_alike like

theorem parseColumnDef_blames : Blames reporting parseColumnDef (any columnDef) := by
  have parts : Blames reporting parseColumnDef (sequence [any identifier, any typeName]) :=
    (expectName_blames _).part fun _ => parseColumnType_blames.part fun _ => .done _
  refine parts.congr fun u => ?_
  constructor
  · rintro ⟨v, _, rfl, ⟨name, named⟩, w, _, rfl, ⟨type, typed⟩, rfl⟩
    exact ⟨⟨name, type⟩, v, _, rfl, named, w, [], rfl, typed, rfl⟩
  · rintro ⟨column, v, _, rfl, named, w, _, rfl, typed, rfl⟩
    exact ⟨v, _, rfl, ⟨_, named⟩, w, [], rfl, ⟨_, typed⟩, rfl⟩

theorem parseAssignment_blames : Blames reporting parseAssignment (any assignment) := by
  have parts : Blames reporting parseAssignment
      (sequence [any identifier, operator "=".toList, any literal]) :=
    (expectName_blames _).part fun _ => expectEqual_blames.part fun _ =>
      parseLiteral_blames.part fun _ => .done _
  refine parts.congr fun u => ?_
  constructor
  · rintro ⟨v, _, rfl, ⟨column, named⟩, e, _, rfl, equal, w, _, rfl, ⟨value, valued⟩, rfl⟩
    exact ⟨(column, value), v, _, rfl, named, e, _, rfl, equal, w, [], rfl, valued, rfl⟩
  · rintro ⟨pair, v, _, rfl, named, e, _, rfl, equal, w, _, rfl, valued, rfl⟩
    exact ⟨v, _, rfl, ⟨_, named⟩, e, _, rfl, equal, w, [], rfl, ⟨_, valued⟩, rfl⟩

theorem parseCondition_blames : Blames reporting parseCondition (any condition) := by
  have parts : Blames reporting parseCondition
      (sequence [any identifier, any fun op => operator (symbol op), any literal]) :=
    (expectName_blames _).part fun _ => parseCompareOp_blames.part fun _ =>
      parseLiteral_blames.part fun _ => .done _
  refine parts.congr fun u => ?_
  constructor
  · rintro ⟨v, _, rfl, ⟨column, named⟩, e, _, rfl, ⟨op, compared⟩, w, _, rfl, ⟨value, valued⟩, rfl⟩
    exact ⟨⟨column, op, value⟩, v, _, rfl, named, e, _, rfl, compared, w, [], rfl, valued, rfl⟩
  · rintro ⟨clause, v, _, rfl, named, e, _, rfl, compared, w, _, rfl, valued, rfl⟩
    exact ⟨v, _, rfl, ⟨_, named⟩, e, _, rfl, ⟨_, compared⟩, w, [], rfl, ⟨_, valued⟩, rfl⟩

theorem parseOptionalWhere_blames :
    Blames reporting parseOptionalWhere (any optionalWhere) := by
  have conditions : Blames reporting parseConditions _ :=
    parseCondition_blames.separated parseCondition_reads isEnd_of_keyword
      (coarse_keyword (by simp : "AND" ≠ "INT"))
  have clauses : Blames reporting parseOptionalWhere _ :=
    .option (fun _ => conditions) (.pure []) isEnd_of_keyword
      (coarse_keyword (by simp : "WHERE" ≠ "INT"))
  refine clauses.congr fun u => ?_
  constructor
  · rintro (⟨t, v, rfl, is, items, derived⟩ | rfl)
    · obtain ⟨clause, others, rfl⟩ := List.exists_cons_of_ne_nil derived.ne_nil
      exact ⟨clause :: others, [t], v, rfl, ⟨t, rfl, is⟩, v, [], (List.append_nil v).symm, derived,
        rfl⟩
    · exact ⟨[], rfl⟩
  · rintro ⟨_ | ⟨clause, others⟩, derived⟩
    · exact .inr derived
    · obtain ⟨_, _, rfl, ⟨t, rfl, is⟩, v, _, rfl, derived, rfl⟩ := derived
      exact .inl ⟨t, v, by rw [List.append_nil]; rfl, is, _, derived⟩

theorem parseSelection_blames : Blames reporting parseSelection (any selection) := by
  have names : Blames reporting parseIdentifierList (any (commaList identifier)) :=
    commaSeparated_blames (expectName_reads _) (expectName_blames _)
  have columns : Blames reporting parseSelection _ :=
    .option (fun _ => .pure []) names isEnd_of_punctuation
      fun _ _ like _ => not_punctuation_of_alike like
  refine columns.congr fun u => ?_
  constructor
  · rintro (⟨t, v, rfl, is, rfl⟩ | ⟨columns, derived⟩)
    · exact ⟨[], t, rfl, is⟩
    · obtain ⟨column, others, rfl⟩ := List.exists_cons_of_ne_nil derived.ne_nil
      exact ⟨column :: others, derived⟩
  · rintro ⟨_ | ⟨column, others⟩, derived⟩
    · obtain ⟨t, rfl, is⟩ := derived
      exact .inl ⟨t, [], rfl, is, rfl⟩
    · exact .inr ⟨column :: others, derived⟩

/-! ### Statements -/

/-- A parser that goes by its first keyword, and what it reads behind it. -/
def Announced (keyword : String) (p : ParseM α) (parts : List (List Token → Prop)) : Prop :=
  ∃ k, p = expectKeyword keyword.toList >>= k ∧ ∀ t, Blames reporting (k t) (sequence parts)

theorem parseCreate_blames :
    Announced "CREATE" parseCreate
      [word "TABLE", any identifier, mark '(', any (commaList columnDef), mark ')'] := by
  refine ⟨_, rfl, fun _ => ?_⟩
  refine (expectKeyword_blames (by simp)).part fun _ => ?_
  refine (expectName_blames _).part fun _ => ?_
  refine (expectPunctuation_blames _).part fun _ => ?_
  refine (commaSeparated_blames parseColumnDef_reads parseColumnDef_blames).part fun _ => ?_
  refine (expectPunctuation_blames _).part fun _ => ?_
  exact expectEnd_blames.check fun _ => .done _

theorem parseDrop_blames : Announced "DROP" parseDrop [word "TABLE", any identifier] := by
  refine ⟨_, rfl, fun _ => ?_⟩
  refine (expectKeyword_blames (by simp)).part fun _ => ?_
  refine (expectName_blames _).part fun _ => ?_
  exact expectEnd_blames.check fun _ => .done _

theorem insertParts_blames :
    Announced "INSERT" insertParts
      [word "INTO", any identifier, mark '(', any (commaList identifier), mark ')', word "VALUES",
        mark '(', any (commaList literal), mark ')'] := by
  refine ⟨_, rfl, fun _ => ?_⟩
  refine (expectKeyword_blames (by simp)).part fun _ => ?_
  refine (expectName_blames _).part fun _ => ?_
  refine (expectPunctuation_blames _).part fun _ => ?_
  refine (commaSeparated_blames (expectName_reads _) (expectName_blames _)).part fun _ => ?_
  refine (expectPunctuation_blames _).part fun _ => ?_
  refine (expectKeyword_blames (by simp)).part fun _ => ?_
  refine (expectPunctuation_blames _).part fun _ => ?_
  refine (commaSeparated_blames parseLiteral_reads parseLiteral_blames).part fun _ => ?_
  refine (expectPunctuation_blames _).part fun _ => ?_
  exact expectEnd_blames.check fun _ => .done _

theorem parseSelect_blames :
    Announced "SELECT" parseSelect
      [any selection, word "FROM", any identifier, any optionalWhere] := by
  refine ⟨_, rfl, fun _ => ?_⟩
  refine parseSelection_blames.part fun _ => ?_
  refine (expectKeyword_blames (by simp)).part fun _ => ?_
  refine (expectName_blames _).part fun _ => ?_
  refine parseOptionalWhere_blames.part fun _ => ?_
  exact expectEnd_blames.check fun _ => .done _

theorem parseUpdate_blames :
    Announced "UPDATE" parseUpdate
      [any identifier, word "SET", any (commaList assignment), any optionalWhere] := by
  refine ⟨_, rfl, fun _ => ?_⟩
  refine (expectName_blames _).part fun _ => ?_
  refine (expectKeyword_blames (by simp)).part fun _ => ?_
  refine (commaSeparated_blames parseAssignment_reads parseAssignment_blames).part fun _ => ?_
  refine parseOptionalWhere_blames.part fun _ => ?_
  exact expectEnd_blames.check fun _ => .done _

theorem parseDelete_blames :
    Announced "DELETE" parseDelete [word "FROM", any identifier, any optionalWhere] := by
  refine ⟨_, rfl, fun _ => ?_⟩
  refine (expectKeyword_blames (by simp)).part fun _ => ?_
  refine (expectName_blames _).part fun _ => ?_
  refine parseOptionalWhere_blames.part fun _ => ?_
  exact expectEnd_blames.check fun _ => .done _

end CppDB.Parser
