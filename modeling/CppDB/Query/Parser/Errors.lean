import CppDB.Query.Parser.Blame

/-! The place of a syntax error. The parser stops at the first token with which no statement
goes on, and names it; only where it has stepped over that token before it judged it, the
token behind it is named. -/
namespace CppDB.Parser

open Descent Grammar

variable {α : Type}

/-! ### The first keyword -/

/-- The parser of a statement takes over when its keyword comes first. -/
def Dispatches (keyword : String) (p : ParseM α) (F : α → Statement) : Prop :=
  ∀ t rest, isKeyword keyword.toList t →
    parseStatement (t :: rest) = (p >>= fun a => pure (F a)) (t :: rest)

theorem parseStatement_of_keyword {t : Token} {value : Str} (is : isKeyword value t)
    (rest : List Token) :
    parseStatement (t :: rest) =
      (if value = "CREATE".toList then return .create (← parseCreate)
      else if value = "DROP".toList then return .drop (← parseDrop)
      else if value = "INSERT".toList then return .insert (← parseInsert)
      else if value = "SELECT".toList then return .select (← parseSelect)
      else if value = "UPDATE".toList then return .update (← parseUpdate)
      else if value = "DELETE".toList then return .delete (← parseDelete)
      else fail (unsupported value) : ParseM Statement) (t :: rest) := by
  obtain ⟨type, rfl⟩ := isKeyword_iff.mp is
  rw [parseStatement, peek_bind, if_neg (not_not.mpr type)]

theorem dispatches :
    Dispatches "CREATE" parseCreate .create ∧ Dispatches "DROP" parseDrop .drop ∧
      Dispatches "INSERT" parseInsert .insert ∧ Dispatches "SELECT" parseSelect .select ∧
      Dispatches "UPDATE" parseUpdate .update ∧ Dispatches "DELETE" parseDelete .delete := by
  -- the keywords differ, so the tests before the right one fail by evaluation
  refine ⟨?_, ?_, ?_, ?_, ?_, ?_⟩
  all_goals
    intro t rest is
    rw [parseStatement_of_keyword is]
    rfl

theorem expectKeyword_bind {keyword : String} {k : Token → ParseM α} {t : Token}
    (is : isKeyword keyword.toList t) (rest : List Token) :
    (expectKeyword keyword.toList >>= k) (t :: rest) = k t rest := by
  refine bind_ok ?_
  rw [expectKeyword, demand, peek_bind, if_pos is]
  exact advance_of_inner (isEnd_of_keyword t is) rest

/-- An error of the parser that has taken over is one of the whole, behind the keyword. -/
theorem Announced.site {keyword : String} {p : ParseM α} {parts : List (List Token → Prop)}
    (announced : Announced keyword p parts)
    (inside : ∀ u, sequence (word keyword :: parts) u → wellFormed u) {t : Token}
    (is : isKeyword keyword.toList t)
    (passes : ∀ rest e, p (t :: rest) = some (.error e) →
      parseStatement (t :: rest) = some (.error e))
    {rest : List Token} {e : SyntaxError} (ends : Terminated Token.isEnd (t :: rest))
    (good : ∀ t' ∈ t :: rest, reporting.good t') (throws : p (t :: rest) = some (.error e)) :
    Site reporting parseStatement Sentence e (t :: rest) := by
  obtain ⟨k, rfl, blames⟩ := announced
  have tail : Terminated Token.isEnd rest := by
    obtain ⟨_, _, ⟨⟩, tail⟩ := ends.exists_cons
    exact tail (isEnd_of_keyword t is)
  have derives : ∀ w, sequence parts w → Sentence (t :: w) := by
    intro w derived
    refine ⟨inside _ ⟨[t], w, rfl, ⟨t, rfl, is⟩, derived⟩, ?_⟩
    exact List.forall_mem_cons.mpr ⟨isEnd_of_keyword t is, (blames t).within w derived⟩
  have stops_behind : ∀ {before t'}, Stops reporting (k t) before t' →
      Stops reporting parseStatement (t :: before) t' := by
    intro before t' stops after terminated
    have terminated' : Terminated reporting.isEnd ([t] ++ (before ++ t' :: after)) := terminated
    obtain ⟨e', spot, throws', placed⟩ := stops after (terminated'.suffix (by simp))
    refine ⟨e', spot, passes _ e' ?_, placed⟩
    rw [expectKeyword_bind is]
    exact throws'
  rw [expectKeyword_bind is] at throws
  cases (blames t).blames rest e tail (fun t' there => good t' (by simp [there])) throws with
  | @here before after t' viable reports stops similar =>
    obtain ⟨w, derived⟩ := viable
    rw [← List.cons_append]
    exact .here ⟨w, derives _ derived⟩ reports (stops_behind stops)
      fun t'' like => stops_behind (similar t'' like)
  | late reports stops similar derived =>
    rw [← List.cons_append]
    exact .late reports (stops_behind stops) similar (derives _ derived)

/-- The two parsers of an `INSERT` fail alike up to its counts. -/
theorem parseInsert_throws {ts : List Token} {e : SyntaxError}
    (throws : parseInsert ts = some (.error e)) :
    insertParts ts = some (.error e) ∨ ∃ parts rest, insertParts ts = some (.ok (parts, rest)) := by
  rw [parseInsert_eq] at throws
  exact (bind_throws throws).imp_right fun ⟨parts, rest, reads, _⟩ => ⟨parts, rest, reads⟩

theorem wellFormed_create (u : List Token)
    (derived : sequence [word "CREATE", word "TABLE", any identifier, mark '(',
      any (commaList columnDef), mark ')'] u) : wellFormed u := by
  obtain ⟨a, _, rfl, create, b, _, rfl, table, c, _, rfl, ⟨name, named⟩, d, _, rfl, opens, f, _,
    rfl, ⟨columns, listed⟩, g, _, rfl, closes, rfl⟩ := derived
  exact .inl ⟨.create ⟨name, columns⟩, a, _, rfl, create, b, _, rfl, table, c, _, rfl, named, d, _,
    rfl, opens, f, _, rfl, listed, g, [], rfl, closes, rfl⟩

theorem wellFormed_drop (u : List Token)
    (derived : sequence [word "DROP", word "TABLE", any identifier] u) : wellFormed u := by
  obtain ⟨a, _, rfl, drop, b, _, rfl, table, c, _, rfl, ⟨name, named⟩, rfl⟩ := derived
  exact .inl ⟨.drop ⟨name⟩, a, _, rfl, drop, b, _, rfl, table, c, [], rfl, named, rfl⟩

theorem wellFormed_select (u : List Token)
    (derived : sequence [word "SELECT", any selection, word "FROM", any identifier,
      any optionalWhere] u) : wellFormed u := by
  obtain ⟨a, _, rfl, select, b, _, rfl, ⟨columns, selected⟩, c, _, rfl, source, d, _, rfl,
    ⟨name, named⟩, f, _, rfl, ⟨conditions, given⟩, rfl⟩ := derived
  exact .inl ⟨.select ⟨name, columns, conditions⟩, a, _, rfl, select, b, _, rfl, selected, c, _,
    rfl, source, d, _, rfl, named, f, [], rfl, given, rfl⟩

theorem wellFormed_update (u : List Token)
    (derived : sequence [word "UPDATE", any identifier, word "SET", any (commaList assignment),
      any optionalWhere] u) : wellFormed u := by
  obtain ⟨a, _, rfl, update, b, _, rfl, ⟨name, named⟩, c, _, rfl, sets, d, _, rfl,
    ⟨assignments, listed⟩, f, _, rfl, ⟨conditions, given⟩, rfl⟩ := derived
  exact .inl ⟨.update ⟨name, assignments, conditions⟩, a, _, rfl, update, b, _, rfl, named, c, _,
    rfl, sets, d, _, rfl, listed, f, [], rfl, given, rfl⟩

theorem wellFormed_delete (u : List Token)
    (derived : sequence [word "DELETE", word "FROM", any identifier, any optionalWhere] u) :
    wellFormed u := by
  obtain ⟨a, _, rfl, delete, b, _, rfl, source, c, _, rfl, ⟨name, named⟩, d, _, rfl,
    ⟨conditions, given⟩, rfl⟩ := derived
  exact .inl ⟨.delete ⟨name, conditions⟩, a, _, rfl, delete, b, _, rfl, source, c, _, rfl, named, d,
    [], rfl, given, rfl⟩

/-- The two ways to say that the counts of an `INSERT` do not matter. -/
theorem insert_any_iff {u : List Token} :
    sequence [word "INSERT", word "INTO", any identifier, mark '(', any (commaList identifier),
        mark ')', word "VALUES", mark '(', any (commaList literal), mark ')'] u ↔
      ∃ parts : Str × List Str × List Str, sequence [word "INSERT", word "INTO",
        identifier parts.1, mark '(', commaList identifier parts.2.1, mark ')', word "VALUES",
        mark '(', commaList literal parts.2.2, mark ')'] u := by
  constructor
  · rintro ⟨a, _, rfl, insert, b, _, rfl, into, c, _, rfl, ⟨name, named⟩, d, _, rfl, opens, f, _,
      rfl, ⟨columns, listed⟩, g, _, rfl, closes, h, _, rfl, values, i, _, rfl, opens', j, _, rfl,
      ⟨literals, valued⟩, k, _, rfl, closes', rfl⟩
    exact ⟨(name, columns, literals), a, _, rfl, insert, b, _, rfl, into, c, _, rfl, named, d, _,
      rfl, opens, f, _, rfl, listed, g, _, rfl, closes, h, _, rfl, values, i, _, rfl, opens', j, _,
      rfl, valued, k, [], rfl, closes', rfl⟩
  · rintro ⟨parts, a, _, rfl, insert, b, _, rfl, into, c, _, rfl, named, d, _, rfl, opens, f, _,
      rfl, listed, g, _, rfl, closes, h, _, rfl, values, i, _, rfl, opens', j, _, rfl, valued, k, _,
      rfl, closes', rfl⟩
    exact ⟨a, _, rfl, insert, b, _, rfl, into, c, _, rfl, ⟨_, named⟩, d, _, rfl, opens, f, _, rfl,
      ⟨_, listed⟩, g, _, rfl, closes, h, _, rfl, values, i, _, rfl, opens', j, _, rfl,
      ⟨_, valued⟩, k, [], rfl, closes', rfl⟩

/-- An `INSERT` that is read up to its counts follows the grammar. -/
theorem valid_of_insertParts {ts rest : List Token} {parts : Str × List Str × List Str}
    (ends : Terminated Token.isEnd ts) (reads : insertParts ts = some (.ok (parts, rest))) :
    Valid ts := by
  obtain ⟨e, throws⟩ | ⟨_, used, _, reads', ends', rfl, derived⟩ := insertParts_reads.sound ts ends
  · cases reads.symm.trans throws
  cases reads.symm.trans reads'
  obtain ⟨last, tail, rfl, isLast⟩ := insertParts_atEnd _ _ _ reads
  obtain rfl := ends'.of_end isLast
  obtain ⟨body, last', split, -, inner⟩ := ends
  obtain ⟨rfl, -⟩ := List.append_inj' split rfl
  exact ⟨used, last, rfl, isLast, .inr (insert_any_iff.mpr ⟨parts, derived⟩), inner⟩

/-- On a valid statement only the counts of an `INSERT` can be wrong. -/
theorem parseStatement_of_valid {tokens : List Token} (valid : Valid tokens) {e : SyntaxError}
    (throws : parseStatement tokens = some (.error e)) : e.token = none := by
  obtain ⟨body, last, rfl, isLast, ⟨stmt, derived⟩ | derived, -⟩ := valid
  · cases throws.symm.trans (parseStatement_reads.complete stmt body last [] derived isLast)
  · obtain ⟨parts, derived'⟩ := insert_any_iff.mp derived
    have reads := insertParts_reads.complete parts body last [] derived' isLast
    have counts : parseStatement (body ++ [last]) =
        (compareCounts parts >>= fun stmt => pure (.insert stmt)) [last] := by
      obtain ⟨_, _, rfl, ⟨t, rfl, is⟩, -⟩ := derived
      rw [List.append_assoc, List.singleton_append, dispatches.2.2.1 t _ is, parseInsert_eq,
        bind_then]
      exact bind_ok reads
    rw [counts, compareCounts] at throws
    split_ifs at throws
    · cases throws
    · cases throws
      rfl

/-- The parser that has taken over passes its errors on. -/
theorem Dispatches.site {keyword : String} {p : ParseM α} {F : α → Statement}
    {parts : List (List Token → Prop)} (takes : Dispatches keyword p F)
    (announced : Announced keyword p parts)
    (inside : ∀ u, sequence (word keyword :: parts) u → wellFormed u) {t : Token}
    (is : isKeyword keyword.toList t) {rest : List Token} {e : SyntaxError}
    (ends : Terminated Token.isEnd (t :: rest)) (good : ∀ t' ∈ t :: rest, reporting.good t')
    (throws : parseStatement (t :: rest) = some (.error e)) :
    Site reporting parseStatement Sentence e (t :: rest) := by
  rw [takes t rest is] at throws
  obtain throws | ⟨_, _, -, never⟩ := bind_throws throws
  · refine announced.site inside is (fun rest' e' throws' => ?_) ends good throws
    rw [takes t rest' is]
    exact bind_error throws'
  · cases never

/-- A first token that announces nothing is where the error is. -/
theorem site_of_refused (message : Str) {t : Token} {rest : List Token} {e : SyntaxError}
    (fails : ∀ rest, parseStatement (t :: rest) = some (.error (.unexpected message t)))
    (throws : parseStatement (t :: rest) = some (.error e)) :
    Site reporting parseStatement Sentence e (t :: rest) := by
  have drops : Sentence [⟨.keyword, "DROP".toList, 0⟩, ⟨.keyword, "TABLE".toList, 0⟩,
      ⟨.identifier, [], 0⟩] :=
    ⟨wellFormed_drop _ ⟨[_], _, rfl, ⟨_, rfl, rfl⟩, [_], _, rfl, ⟨_, rfl, rfl⟩, [_], [], rfl,
      ⟨[], _, rfl, by simp, rfl⟩, rfl⟩, by simp [Token.isEnd]⟩
  cases throws.symm.trans (fails rest)
  refine @Site.here _ _ _ _ _ _ _ [] rest t ⟨_, drops⟩ rfl ?_ ?_
  · intro after _
    exact ⟨_, t, fails after, rfl⟩
  · rintro _ (⟨-, rfl⟩ | ⟨-, rfl⟩) after _
    · exact ⟨_, intWord, rfl, rfl⟩
    · exact ⟨_, equals, rfl, rfl⟩

/-- Every error but that of the counts has its site. -/
theorem parse_site {ts : List Token} {e : SyntaxError} (ends : Terminated Token.isEnd ts)
    (good : ∀ t ∈ ts, reporting.good t) (throws : parseStatement ts = some (.error e)) :
    Site reporting parseStatement Sentence e ts ∨ Valid ts := by
  obtain ⟨t, rest, rfl, -⟩ := ends.exists_cons
  obtain ⟨create, drop, insert, select, update, delete⟩ := dispatches
  by_cases keyword : t.type = .keyword
  swap
  · refine .inl (site_of_refused statementExpected (fun rest => ?_) throws)
    rw [parseStatement, peek_bind, if_pos keyword]
    rfl
  by_cases isCreate : isKeyword "CREATE".toList t
  · exact .inl (create.site parseCreate_blames wellFormed_create isCreate ends good throws)
  by_cases isDrop : isKeyword "DROP".toList t
  · exact .inl (drop.site parseDrop_blames wellFormed_drop isDrop ends good throws)
  by_cases isInsert : isKeyword "INSERT".toList t
  · rw [insert t rest isInsert] at throws
    obtain throws | ⟨_, _, -, never⟩ := bind_throws throws
    swap
    · cases never
    obtain throws | ⟨parts, left, reads⟩ := parseInsert_throws throws
    · refine .inl (insertParts_blames.site (fun _ => .inr) isInsert (fun rest' e' throws' => ?_)
        ends good throws)
      rw [insert t rest' isInsert, parseInsert_eq, bind_then]
      exact bind_error throws'
    · exact .inr (valid_of_insertParts ends reads)
  by_cases isSelect : isKeyword "SELECT".toList t
  · exact .inl (select.site parseSelect_blames wellFormed_select isSelect ends good throws)
  by_cases isUpdate : isKeyword "UPDATE".toList t
  · exact .inl (update.site parseUpdate_blames wellFormed_update isUpdate ends good throws)
  by_cases isDelete : isKeyword "DELETE".toList t
  · exact .inl (delete.site parseDelete_blames wellFormed_delete isDelete ends good throws)
  simp only [isKeyword_iff, keyword, true_and] at isCreate isDrop isInsert
  simp only [isKeyword_iff, keyword, true_and] at isSelect isUpdate isDelete
  refine .inl (site_of_refused (unsupported t.value) (fun rest => ?_) throws)
  rw [parseStatement, peek_bind, if_neg (not_not.mpr keyword), if_neg isCreate, if_neg isDrop,
    if_neg isInsert, if_neg isSelect, if_neg isUpdate, if_neg isDelete]
  rfl

theorem not_viable_of_stops {before : List Token} {t : Token}
    (stops : Stops reporting parseStatement before t) : ¬ Viable (before ++ [t]) := by
  rintro ⟨rest, valid⟩
  rw [List.append_assoc, List.singleton_append] at valid
  have terminated : Terminated reporting.isEnd (before ++ t :: rest) := by
    obtain ⟨body, last, split, isLast, -, inner⟩ := valid
    exact ⟨body, last, split, isLast, inner⟩
  obtain ⟨e, spot, throws, placed⟩ := stops rest terminated
  cases (parseStatement_of_valid valid throws).symm.trans placed

/-! ### The offending token -/

/-- The place of the error that the message names. -/
def SyntaxError.position (e : SyntaxError) : Option Nat := e.token.map Token.position

theorem what_position {e : SyntaxError} {p : Nat} (is : e.position = some p) :
    ∃ front back, e.what = front ++ " at position ".toList ++ decimal p ++ back := by
  cases e with
  | unexpected message found =>
    cases is
    exact ⟨message, _, rfl⟩
  | unknownOperator token =>
    cases is
    have regroup (a v b d x y : Str) (cut : x = b ++ y) :
        a ++ v ++ x ++ d = a ++ v ++ b ++ y ++ d ++ [] := by simp [cut]
    exact ⟨"unknown operator '".toList ++ token.value ++ "'".toList, [],
      regroup _ _ _ _ _ _ (by decide +kernel)⟩
  | countMismatch => cases is

/-- The first token with which the tokens before it cannot be continued. -/
structure Offends (tokens before : List Token) (t : Token) (after : List Token) : Prop where
  split : tokens = before ++ t :: after
  viable : Viable before
  stuck : ¬ Viable (before ++ [t])

/-- A keyword where a column type may stand, or an operator where an `=` may. -/
def Misread (before : List Token) (t : Token) : Prop :=
  t.type = .keyword ∧ Viable (before ++ [intWord]) ∨
    t.type = .operator ∧ Viable (before ++ [equals])

theorem Offends.unique {tokens before before' after after' : List Token} {t t' : Token}
    (first : Offends tokens before t after) (second : Offends tokens before' t' after') :
    before = before' ∧ t = t' ∧ after = after' := by
  have apart : ∀ {b b' a a' : List Token} {x x' : Token}, Offends tokens b x a →
      Offends tokens b' x' a' → ∀ c, b' ≠ b ++ x :: c := by
    rintro b _ a a' x x' one other c rfl
    apply one.stuck
    apply Viable.of_append
    rw [List.append_assoc]
    exact other.viable
  rcases List.append_eq_append_iff.mp (first.split.symm.trans second.split) with
    ⟨c, rfl, same⟩ | ⟨c, rfl, same⟩
  · cases c with
    | nil =>
      obtain ⟨rfl, rfl⟩ := List.cons.inj same
      exact ⟨(List.append_nil _).symm, rfl, rfl⟩
    | cons x c =>
      obtain ⟨rfl, -⟩ := List.cons.inj same
      exact absurd rfl (apart first second c)
  · cases c with
    | nil =>
      obtain ⟨rfl, rfl⟩ := List.cons.inj same
      exact ⟨List.append_nil _, rfl, rfl⟩
    | cons x c =>
      obtain ⟨rfl, -⟩ := List.cons.inj same
      exact absurd rfl (apart second first c)

/-- What the parser knows about tokens that come from a query. -/
theorem lexed_tokens {query : Str} {tokens : List Token}
    (lexes : Lexer.tokenize query = some (.ok tokens)) :
    Terminated Token.isEnd tokens ∧ (∀ t ∈ tokens, reporting.good t) ∧
      (tokens.map Token.position).Pairwise (· < ·) := by
  obtain ⟨body, rfl, layout⟩ := Lexer.tokenize_eq_ok_iff.mp lexes
  have inner : ∀ t ∈ body, t.isEnd = false := by
    intro t there
    obtain ⟨text, lexeme⟩ := layout.lexeme t there
    rw [Token.isEnd]
    cases type : t.type with
    | endOfInput =>
      rw [type] at lexeme
      cases lexeme
    | _ => rfl
  refine ⟨⟨body, _, rfl, rfl, inner⟩, ?_, ?_⟩
  · intro t there is
    rcases List.mem_append.mp there with there | there
    · obtain ⟨text, lexeme⟩ := layout.lexeme t there
      rw [is] at lexeme
      cases lexeme with
      | operator listed => exact listed
    · obtain rfl := List.mem_singleton.mp there
      cases is
  · have positions := layout.positions.1
    rw [Nat.zero_add] at positions
    rw [List.map_append]
    exact positions

/-- A query that tokenizes and is no statement has one offending token. The error thrown is
placed at it, unless it is a keyword in the place of a column type or an operator in the
place of the equals sign of an assignment; then the next token is named. -/
theorem syntax_error_at_offending_token {query : Str} {tokens : List Token}
    (lexes : Lexer.tokenize query = some (.ok tokens)) (invalid : ¬ Valid tokens) :
    ∃ e p front back, parse tokens = some (.error e) ∧ e.position = some p ∧
      e.what = front ++ " at position ".toList ++ decimal p ++ back ∧
      (∃ before t after, Offends tokens before t after) ∧
      ∀ before t after, Offends tokens before t after →
        (p = t.position ↔ ¬ Misread before t) := by
  obtain ⟨ends, good, increasing⟩ := lexed_tokens lexes
  obtain ⟨e, throws⟩ | ⟨stmt, used, rest, reads, ends', rfl, derived⟩ :=
    parseStatement_reads.sound tokens ends
  swap
  · obtain ⟨last, tail, rfl, isLast⟩ := parseStatement_atEnd _ _ _ reads
    obtain rfl := ends'.of_end isLast
    obtain ⟨body, last', split, -, inner⟩ := ends
    obtain ⟨rfl, -⟩ := List.append_inj' split rfl
    exact absurd ⟨used, last, rfl, isLast, .inl ⟨stmt, derived⟩, inner⟩ invalid
  have fails : parse tokens = some (.error e) := by
    rw [parse, throws]
    rfl
  obtain site | valid := parse_site ends good throws
  swap
  · exact absurd valid invalid
  cases site with
  | @here before after t viable reports stops similar =>
    obtain ⟨w, derived⟩ := viable
    have offends : Offends (before ++ t :: after) before t after :=
      ⟨rfl, viable_of_sentence derived, not_viable_of_stops stops⟩
    have position : e.position = some t.position := congrArg (Option.map Token.position) reports
    obtain ⟨front, back, text⟩ := what_position position
    refine ⟨e, t.position, front, back, fails, position, text, ⟨before, t, after, offends⟩, ?_⟩
    intro before' t' after' other
    obtain ⟨rfl, rfl, rfl⟩ := offends.unique other
    refine iff_of_true rfl ?_
    rintro (⟨is, viable⟩ | ⟨is, viable⟩)
    · exact not_viable_of_stops (similar intWord (.inl ⟨is, rfl⟩)) viable
    · exact not_viable_of_stops (similar equals (.inr ⟨is, rfl⟩)) viable
  | @late before after w t n t' reports stops similar derived =>
    have sentence : Sentence (before ++ [t'] ++ w) := by simpa using derived
    have viable : Viable (before ++ [t']) := viable_of_sentence sentence
    have offends : Offends (before ++ t :: n :: after) before t (n :: after) :=
      ⟨rfl, viable.of_append, not_viable_of_stops stops⟩
    have position : e.position = some n.position := congrArg (Option.map Token.position) reports
    obtain ⟨front, back, text⟩ := what_position position
    refine ⟨e, n.position, front, back, fails, position, text, ⟨before, t, _, offends⟩, ?_⟩
    intro before' t'' after' other
    obtain ⟨rfl, rfl, rfl⟩ := offends.unique other
    have later : t.position < n.position := by
      rw [List.map_append, List.pairwise_append] at increasing
      exact (List.pairwise_cons.mp increasing.2.1).1 _ (by simp)
    refine iff_of_false (by omega) (not_not.mpr ?_)
    rcases similar with ⟨is, rfl⟩ | ⟨is, rfl⟩
    · exact .inl ⟨is, viable⟩
    · exact .inr ⟨is, viable⟩

/-- `DROP t`, where the keyword `TABLE` is missing. -/
theorem syntax_error_at_offending_token_drop :
    (Lexer.tokenize "DROP t".toList = some (.ok [⟨.keyword, "DROP".toList, 0⟩,
        ⟨.identifier, ['t'], 5⟩, ⟨.endOfInput, [], 6⟩]) ∧
      ¬ Valid [⟨.keyword, "DROP".toList, 0⟩, ⟨.identifier, ['t'], 5⟩, ⟨.endOfInput, [], 6⟩]) ∧
      ∃ e p front back, parse [⟨.keyword, "DROP".toList, 0⟩, ⟨.identifier, ['t'], 5⟩,
          ⟨.endOfInput, [], 6⟩] = some (.error e) ∧ e.position = some p ∧
        e.what = front ++ " at position ".toList ++ decimal p ++ back := by
  have lexes : Lexer.tokenize "DROP t".toList = some (.ok [⟨.keyword, "DROP".toList, 0⟩,
      ⟨.identifier, ['t'], 5⟩, ⟨.endOfInput, [], 6⟩]) := by decide +kernel
  have invalid : ¬ Valid [⟨.keyword, "DROP".toList, 0⟩, ⟨.identifier, ['t'], 5⟩,
      ⟨.endOfInput, [], 6⟩] := by
    intro valid
    cases parseStatement_of_valid valid rfl
  obtain ⟨e, p, front, back, fails, position, text, -⟩ :=
    syntax_error_at_offending_token lexes invalid
  exact ⟨⟨lexes, invalid⟩, e, p, front, back, fails, position, text⟩

/-- `UPDATE t SET a < 5`: no assignment goes on with the `<`, and the `5` is reported. -/
theorem assignment_operator_reported_late :
    Lexer.tokenize "UPDATE t SET a < 5".toList = some (.ok [⟨.keyword, "UPDATE".toList, 0⟩,
        ⟨.identifier, ['t'], 7⟩, ⟨.keyword, "SET".toList, 9⟩, ⟨.identifier, ['a'], 13⟩,
        ⟨.operator, ['<'], 15⟩, ⟨.number, ['5'], 17⟩, ⟨.endOfInput, [], 18⟩]) ∧
      Offends [⟨.keyword, "UPDATE".toList, 0⟩, ⟨.identifier, ['t'], 7⟩, ⟨.keyword, "SET".toList, 9⟩,
          ⟨.identifier, ['a'], 13⟩, ⟨.operator, ['<'], 15⟩, ⟨.number, ['5'], 17⟩,
          ⟨.endOfInput, [], 18⟩]
        [⟨.keyword, "UPDATE".toList, 0⟩, ⟨.identifier, ['t'], 7⟩, ⟨.keyword, "SET".toList, 9⟩,
          ⟨.identifier, ['a'], 13⟩] ⟨.operator, ['<'], 15⟩
        [⟨.number, ['5'], 17⟩, ⟨.endOfInput, [], 18⟩] ∧
      parse [⟨.keyword, "UPDATE".toList, 0⟩, ⟨.identifier, ['t'], 7⟩, ⟨.keyword, "SET".toList, 9⟩,
          ⟨.identifier, ['a'], 13⟩, ⟨.operator, ['<'], 15⟩, ⟨.number, ['5'], 17⟩,
          ⟨.endOfInput, [], 18⟩] =
        some (.error (.unexpected equalExpected ⟨.number, ['5'], 17⟩)) := by
  refine ⟨by decide +kernel, ⟨rfl, ?_, ?_⟩, rfl⟩
  · -- `= 5` would have gone on
    apply @viable_of_sentence _ [equals, ⟨.number, ['5'], 0⟩]
    refine ⟨wellFormed_update _ ⟨[_], _, rfl, ⟨_, rfl, rfl⟩, [_], _, rfl,
      ⟨['t'], _, rfl, by simp, rfl⟩, [_], _, rfl, ⟨_, rfl, rfl⟩, [_, _, _], [], rfl,
      ⟨[(['a'], ['5'])], .one ?_⟩, [], [], rfl,
      ⟨[], rfl⟩, rfl⟩, by simp [Token.isEnd, equals]⟩
    exact ⟨[_], _, rfl, ⟨_, rfl, by simp, rfl⟩, [_], _, rfl, ⟨_, rfl, by simp [equals], rfl⟩, [_],
      [], rfl, ⟨_, rfl, by simp, rfl⟩, rfl⟩
  · apply not_viable_of_stops
    intro after terminated
    cases after with
    | nil =>
      obtain ⟨body, last, split, isLast, -⟩ := terminated
      have final := congrArg List.getLast? split
      rw [List.getLast?_concat, List.getLast?_concat] at final
      cases final
      cases isLast
    | cons n rest => exact ⟨_, n, rfl, rfl⟩

end CppDB.Parser
