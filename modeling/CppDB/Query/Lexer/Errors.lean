import CppDB.Query.Lexer.Lexemes

/-! Where the lexer fails. The text in front of the position in the message tokenizes, and
what comes behind it makes no difference but for what the message says is missing. -/
namespace CppDB.Lexer

variable {start stop : Nat} {c q : Char} {token : Option Token} {tokens : List Token}
  {text more rest behind : Str} {e : Exn}

/-! ### Texts that begin the same -/

/-- A round looks no further than at the character behind what it takes. -/
theorem scanToken_behind (scans : scanToken start c rest = .ok (token, behind)) :
    ∃ front, c :: rest = front ++ behind ∧ front ≠ [] ∧
      ∀ behind', (behind' = [] ∨ behind'.head? = behind.head?) →
        ∃ rest', front ++ behind' = c :: rest' ∧
          scanToken start c rest' = .ok (token, behind') := by
  cases token with
  | none =>
    have round := scanToken_round start c rest
    rw [scans] at round
    cases round with
    | blank is =>
      exact ⟨[c], rfl, by simp, fun behind' _ => ⟨behind', rfl, (Round.blank is).scans⟩⟩
  | some made =>
    obtain ⟨front, split, lexeme, placed, clear⟩ := scanToken_lexeme scans
    refine ⟨front, split, lexeme.ne_nil, fun behind' same => ?_⟩
    have clear' : Clear made.type front behind' := by
      intro d begins
      obtain rfl | same := same
      · cases begins
      · exact clear d (same ▸ begins)
    obtain ⟨c', rest', rfl, scans'⟩ := lexeme.scans clear' start
    cases split
    refine ⟨rest' ++ behind', rfl, ?_⟩
    rw [scans', ← placed]

theorem Reads.again (reads : Reads start text tokens stop more) :
    ∃ front, text = front ++ more ∧ stop = start + front.length ∧
      ∀ more', (more' = [] ∨ more'.head? = more.head?) →
        Reads start (front ++ more') tokens stop more' := by
  induction reads with
  | done => exact ⟨[], rfl, rfl, fun more' _ => .done⟩
  | @round start stop c rest text more token tokens scans reads ih =>
    obtain ⟨later, rfl, reaches, rereads⟩ := ih
    obtain ⟨front, split, some, rescans⟩ := scanToken_behind scans
    have length := congrArg List.length split
    simp only [List.length_cons, List.length_append] at length
    refine ⟨front ++ later, by rw [split, List.append_assoc], ?_, fun more' same => ?_⟩
    · rw [reaches, List.length_append, List.length_append]
      omega
    · have same' : later ++ more' = [] ∨ (later ++ more').head? = (later ++ more).head? := by
        cases later with
        | nil => exact same
        | cons d later => exact .inr rfl
      obtain ⟨rest', begins, scans'⟩ := rescans (later ++ more') same'
      have length' := congrArg List.length begins
      simp only [List.length_cons, List.length_append] at length'
      rw [List.append_assoc, begins]
      refine .round scans' ?_
      have shift : start + (rest'.length + 1 - (later ++ more').length) =
          start + (rest.length + 1 - (later ++ more).length) := by
        simp only [List.length_append]
        omega
      rw [shift]
      exact rereads more' same

/-! ### The first failure -/

/-- A text that does not tokenize is read up to a character on which a round fails. -/
theorem reads_of_lexFrom_error (fails : lexFrom start text = some (.error e)) :
    ∃ tokens stop c rest, Reads start text tokens stop (c :: rest) ∧
      scanToken stop c rest = .error e := by
  induction size : text.length using Nat.strong_induction_on generalizing start text with
  | _ n ih =>
    cases text with
    | nil => cases fails
    | cons c rest =>
      rw [lexFrom_cons] at fails
      cases scans : scanToken start c rest with
      | error e' =>
        rw [scans] at fails
        cases fails
        exact ⟨[], start, c, rest, .done, scans⟩
      | ok scanned =>
        obtain ⟨token, text⟩ := scanned
        rw [scans] at fails
        obtain ⟨answer, returns, same⟩ := Option.map_eq_some_iff.mp fails
        cases answer with
        | ok others => cases same
        | error e' =>
          cases same
          have shorter := (scanToken_spec scans).1.length_le
          rw [List.length_cons] at size
          obtain ⟨tokens, stop, c', rest', reads, stuck⟩ := ih text.length (by omega) returns rfl
          exact ⟨_, stop, c', rest', .round scans reads, stuck⟩

theorem lexFrom_of_stuck (reads : Reads start text tokens stop (c :: rest))
    (stuck : scanToken stop c rest = .error e) : lexFrom start text = some (.error e) := by
  rw [lexFrom_of_reads reads, lexFrom_cons, stuck]
  rfl

/-- A string that no quote closes has its quotes in pairs. -/
theorem stringBody_eq_none (runs : stringBody q rest = none) : ∃ content, rest = escape q content := by
  fun_induction stringBody q rest with
  | case1 => exact ⟨[], rfl⟩
  | case2 => cases runs
  | case3 more ih =>
    obtain ⟨content, rfl⟩ := ih (Option.map_eq_none_iff.mp runs)
    exact ⟨q :: content, by simp [escape]⟩
  | case4 => cases runs
  | case5 d more other ih =>
    obtain ⟨content, rfl⟩ := ih (Option.map_eq_none_iff.mp runs)
    exact ⟨d :: content, by simp [escape, other]⟩

theorem stringBody_of_escape (q : Char) (content : Str) : stringBody q (escape q content) = none := by
  induction content with
  | nil => rfl
  | cons d content ih =>
    by_cases same : d = q
    · subst same
      have unfolds : escape d (d :: content) = d :: d :: escape d content := by simp [escape]
      rw [unfolds, stringBody_doubled, ih]
      rfl
    · have unfolds : escape q (d :: content) = d :: escape q content := by simp [escape, same]
      rw [unfolds, stringBody_plain same, ih]
      rfl

theorem escape_of_notMem (free : q ∉ text) : escape q text = text := by
  induction text with
  | nil => rfl
  | cons d text ih =>
    rw [List.mem_cons, not_or] at free
    have unfolds : escape q (d :: text) = d :: escape q text := by simp [escape, Ne.symm free.1]
    rw [unfolds, ih free.2]

theorem tokenizes_of_reads {input : Str} (reads : Reads 0 input tokens stop []) :
    ∃ all, tokenize input = some (.ok all) :=
  ⟨_, lexFrom_of_reads reads⟩

/-- Whatever the lexer fails with, the text in front of the position it reports tokenizes.
An unexpected character fails the same way whatever comes behind it, but for a minus sign in
front of a digit; so does a `!` unless `=` follows, which would mend it; and a string that is
not closed fails the same way until its quote comes, which would close it. -/
theorem lexer_errors_are_local (input : Str) (e : Exn) (fails : tokenize input = some (.error e)) :
    ∃ front c rest, input = front ++ c :: rest ∧ (∃ tokens, tokenize front = some (.ok tokens)) ∧
      ((e = unexpectedCharacter c front.length ∧
          ∀ more, ¬ (c = '-' ∧ more.head?.any Char.isDigit) →
            tokenize (front ++ c :: more) = some (.error e)) ∨
        (e = unexpectedBang front.length ∧ c = '!' ∧
          (∀ more, more.head? ≠ some '=' → tokenize (front ++ c :: more) = some (.error e)) ∧
          ∃ tokens, tokenize (front ++ "!=".toList) = some (.ok tokens)) ∨
        e = unterminated front.length ∧ IsQuote c ∧
          (∀ more, c ∉ more → tokenize (input ++ more) = some (.error e)) ∧
          ∃ tokens, tokenize (input ++ [c]) = some (.ok tokens)) := by
  obtain ⟨tokens, stop, c, rest, reads, stuck⟩ := reads_of_lexFrom_error fails
  obtain ⟨front, rfl, reaches, rereads⟩ := reads.again
  rw [Nat.zero_add] at reaches
  subst reaches
  have fails' : ∀ more, scanToken front.length c more = .error e →
      tokenize (front ++ c :: more) = some (.error e) :=
    fun more stuck => lexFrom_of_stuck (rereads (c :: more) (.inr rfl)) stuck
  refine ⟨front, c, rest, rfl, ?_, ?_⟩
  · have whole := rereads [] (.inl rfl)
    rw [List.append_nil] at whole
    exact tokenizes_of_reads whole
  have round := scanToken_round front.length c rest
  rw [stuck] at round
  cases round with
  | unexpected noBlank noWord noNumber others =>
    refine .inl ⟨rfl, fun more other => fails' more (Round.unexpected noBlank noWord ?_ others).scans⟩
    rintro (digit | minus)
    · exact noNumber (.inl digit)
    · exact other minus
  | bang is alone =>
    subst is
    refine .inr (.inl ⟨rfl, rfl, fun more other => fails' more (Round.bang rfl other).scans, ?_⟩)
    have pair : scanToken front.length '!' ['='] =
        .ok (some ⟨.operator, ['!', '='], front.length⟩, []) :=
      (Round.paired (.inr (.inr rfl)) rfl).scans
    exact tokenizes_of_reads ((rereads ['!', '='] (.inr rfl)).trans (.round pair .done))
  | unclosed quote runs =>
    obtain ⟨content, rfl⟩ := stringBody_eq_none runs
    refine .inr (.inr ⟨rfl, quote, fun more free => ?_, ?_⟩)
    · rw [List.append_assoc, List.cons_append]
      refine fails' _ (Round.unclosed quote ?_).scans
      have longer : escape c content ++ more = escape c (content ++ more) := by
        rw [escape, escape, List.flatMap_append, ← escape, ← escape, escape_of_notMem free]
      rw [longer]
      exact stringBody_of_escape c _
    · have closes : Reads front.length (c :: (escape c content ++ [c])) _ _ [] :=
        reads_literal quote (by simp) front.length content
      rw [List.append_assoc, List.cons_append]
      exact tokenizes_of_reads ((rereads (c :: (escape c content ++ [c])) (.inr rfl)).trans closes)

theorem lexer_errors_are_local_unclosed :
    tokenize "x = 'it''s".toList = some (.error (unterminated 4)) ∧
      ∃ front c rest, "x = 'it''s".toList = front ++ c :: rest ∧
        (∃ tokens, tokenize front = some (.ok tokens)) ∧
        ((unterminated 4 = unexpectedCharacter c front.length ∧
            ∀ more, ¬ (c = '-' ∧ more.head?.any Char.isDigit) →
              tokenize (front ++ c :: more) = some (.error (unterminated 4))) ∨
          (unterminated 4 = unexpectedBang front.length ∧ c = '!' ∧
            (∀ more, more.head? ≠ some '=' →
              tokenize (front ++ c :: more) = some (.error (unterminated 4))) ∧
            ∃ tokens, tokenize (front ++ "!=".toList) = some (.ok tokens)) ∨
          unterminated 4 = unterminated front.length ∧ IsQuote c ∧
            (∀ more, c ∉ more →
              tokenize ("x = 'it''s".toList ++ more) = some (.error (unterminated 4))) ∧
            ∃ tokens, tokenize ("x = 'it''s".toList ++ [c]) = some (.ok tokens)) := by
  have fails : tokenize "x = 'it''s".toList = some (.error (unterminated 4)) := by
    decide +kernel
  exact ⟨fails, lexer_errors_are_local _ _ fails⟩

end CppDB.Lexer
