import CppDB.Query.Lexer.Model

/-! What the lexer hands to the parser: it always returns, with a token list that ends in
its only end token, or with an error. -/
namespace CppDB.Lexer

variable {start : Nat} {c : Char} {rest text : Str}

/-! ### One round -/

/-- A quote character. -/
def IsQuote (q : Char) : Prop := q = '\'' ∨ q = '"'

/-- What a round does, by the character it looks at. -/
inductive Round (start : Nat) (c : Char) (rest : Str) : Except Exn (Option Token × Str) → Prop where
  | blank (is : isSpace c = true) : Round start c rest (.ok (none, rest))
  | word (is : isIdentStart c = true) :
      Round start c rest (.ok (some (wordToken (c :: rest.takeWhile isIdentChar) start),
        rest.dropWhile isIdentChar))
  | number (is : c.isDigit = true ∨ c = '-' ∧ rest.head?.any Char.isDigit = true) :
      Round start c rest (.ok (some ⟨.number, c :: rest.takeWhile Char.isDigit, start⟩,
        rest.dropWhile Char.isDigit))
  | string {content text : Str} (is : IsQuote c) (closed : stringBody c rest = some (content, text)) :
      Round start c rest (.ok (some ⟨.string, content, start⟩, text))
  | unclosed (is : IsQuote c) (runs : stringBody c rest = none) :
      Round start c rest (.error (unterminated start))
  | operator (is : c = '=' ∨ (c = '<' ∨ c = '>') ∧ rest.head? ≠ some '=') :
      Round start c rest (.ok (some ⟨.operator, [c], start⟩, rest))
  | paired (is : c = '<' ∨ c = '>' ∨ c = '!') (follows : rest.head? = some '=') :
      Round start c rest (.ok (some ⟨.operator, [c, '='], start⟩, rest.tail))
  | bang (is : c = '!') (alone : rest.head? ≠ some '=') :
      Round start c rest (.error (unexpectedBang start))
  | mark (is : c = '(' ∨ c = ')' ∨ c = ',' ∨ c = '*') :
      Round start c rest (.ok (some ⟨.punctuation, [c], start⟩, rest))
  | unexpected (noBlank : isSpace c = false) (noWord : isIdentStart c = false)
      (noNumber : ¬ (c.isDigit = true ∨ c = '-' ∧ rest.head?.any Char.isDigit = true))
      (others : c ∉ ['\'', '"', '=', '<', '>', '!', '(', ')', ',', '*']) :
      Round start c rest (.error (unexpectedCharacter c start))

theorem isSpace_iff : isSpace c = true ↔ c.toNat = 32 ∨ 9 ≤ c.toNat ∧ c.toNat ≤ 13 := by
  rw [isSpace, decide_eq_true_eq, ← Char.toNat_inj]
  rfl

theorem isDigit_iff : c.isDigit = true ↔ 48 ≤ c.toNat ∧ c.toNat ≤ 57 := by
  rw [Char.isDigit, Bool.and_eq_true, decide_eq_true_eq, decide_eq_true_eq]
  rfl

theorem isIdentStart_iff : isIdentStart c = true ↔
    65 ≤ c.toNat ∧ c.toNat ≤ 90 ∨ 97 ≤ c.toNat ∧ c.toNat ≤ 122 ∨ c.toNat = 95 := by
  rw [isIdentStart, Bool.or_eq_true, decide_eq_true_eq, ← Char.toNat_inj, Char.isAlpha,
    Bool.or_eq_true, Char.isUpper, Char.isLower, Bool.and_eq_true, decide_eq_true_eq,
    decide_eq_true_eq, decide_eq_true_eq, or_assoc]
  rfl

theorem isSpace_of_isIdentStart (is : isIdentStart c = true) : isSpace c = false := by
  rw [isIdentStart_iff] at is
  rw [← Bool.not_eq_true, isSpace_iff]
  omega

theorem isSpace_of_isDigit (is : c.isDigit = true) : isSpace c = false ∧ isIdentStart c = false := by
  rw [isDigit_iff] at is
  rw [← Bool.not_eq_true, ← Bool.not_eq_true, isSpace_iff, isIdentStart_iff]
  omega

theorem scanToken_round (start : Nat) (c : Char) (rest : Str) :
    Round start c rest (scanToken start c rest) := by
  rw [scanToken]
  by_cases blank : isSpace c = true
  · rw [if_pos blank]
    exact .blank blank
  rw [if_neg blank]
  by_cases word : isIdentStart c = true
  · rw [if_pos word]
    exact .word word
  rw [if_neg word]
  by_cases number : (c.isDigit || (c = '-' && rest.head?.any Char.isDigit)) = true
  · rw [if_pos number]
    exact .number (by simpa using number)
  rw [if_neg number]
  by_cases quoted : (c = '\'' || c = '"') = true
  · have is : IsQuote c := by simpa [IsQuote] using quoted
    rw [if_pos quoted]
    cases runs : stringBody c rest with
    | some closed => exact .string is runs
    | none => exact .unclosed is runs
  rw [if_neg quoted]
  by_cases equal : c = '='
  · rw [if_pos equal]
    exact .operator (.inl equal)
  rw [if_neg equal]
  by_cases angle : (c = '<' || c = '>') = true
  · have is : c = '<' ∨ c = '>' := by simpa using angle
    rw [if_pos angle]
    by_cases following : rest.head? = some '='
    · rw [if_pos following]
      exact .paired (or_assoc.mp (.inl is)) following
    · rw [if_neg following]
      exact .operator (.inr ⟨is, following⟩)
  rw [if_neg angle]
  by_cases bang : c = '!'
  · rw [if_pos bang]
    by_cases following : rest.head? = some '='
    · rw [if_pos following]
      exact .paired (.inr (.inr bang)) following
    · rw [if_neg following]
      exact .bang bang following
  rw [if_neg bang]
  by_cases mark : (c = '(' || c = ')' || c = ',' || c = '*') = true
  · rw [if_pos mark]
    exact .mark (by simpa [or_assoc] using mark)
  rw [if_neg mark]
  refine .unexpected (by simpa using blank) (by simpa using word) (by simpa using number) ?_
  simp_all

/-- The branches are those of the loop and no others. -/
theorem Round.scans {result : Except Exn (Option Token × Str)} (round : Round start c rest result) :
    scanToken start c rest = result := by
  cases round with
  | blank is => rw [scanToken, if_pos is]
  | word is => rw [scanToken, isSpace_of_isIdentStart is, if_neg Bool.false_ne_true, if_pos is]
  | number is =>
    have apart : isSpace c = false ∧ isIdentStart c = false := by
      rcases is with digit | ⟨rfl, -⟩
      · exact isSpace_of_isDigit digit
      · decide
    have numeric : (c.isDigit || (c = '-' && rest.head?.any Char.isDigit)) = true := by
      simpa using is
    rw [scanToken, apart.1, apart.2, if_neg Bool.false_ne_true, if_neg Bool.false_ne_true,
      if_pos numeric]
  | string is closed => rcases is with rfl | rfl <;> simp [scanToken, closed, isSpace, isIdentStart]
  | unclosed is runs => rcases is with rfl | rfl <;> simp [scanToken, runs, isSpace, isIdentStart]
  | operator is =>
    rcases is with rfl | ⟨rfl | rfl, alone⟩ <;> simp_all [scanToken, isSpace, isIdentStart]
  | paired is follows =>
    rcases is with rfl | rfl | rfl <;> simp [scanToken, follows, isSpace, isIdentStart]
  | bang is alone =>
    subst is
    simp [scanToken, alone, isSpace, isIdentStart]
  | mark is => rcases is with rfl | rfl | rfl | rfl <;> simp [scanToken, isSpace, isIdentStart]
  | unexpected noBlank noWord noNumber others =>
    have numeric : (c.isDigit || (c = '-' && rest.head?.any Char.isDigit)) = false := by
      simpa using noNumber
    simp only [List.mem_cons, List.not_mem_nil, or_false, not_or] at others
    simp [scanToken, noBlank, noWord, numeric, others]

/-! ### Tokens -/

/-- A token as the loop makes it: not the end, and an identifier only of word characters. -/
structure Lexed (token : Token) : Prop where
  inner : token.isEnd = false
  word : token.type = .identifier → ∀ c ∈ token.value, isIdentChar c

theorem isIdentChar_of_start (is : isIdentStart c) : isIdentChar c := by
  simp only [isIdentStart, isIdentChar, Char.isAlphanum, Bool.or_eq_true] at is ⊢
  exact is.imp_left .inl

theorem stringBody_suffix {quote : Char} {content : Str}
    (closed : stringBody quote rest = some (content, text)) : text <:+ rest := by
  fun_induction stringBody quote rest generalizing content with
  | case1 => cases closed
  | case2 =>
    cases closed
    exact List.nil_suffix
  | case3 behind ih =>
    obtain ⟨⟨content', text'⟩, inner, same⟩ := Option.map_eq_some_iff.mp closed
    cases same
    exact (ih inner).trans ((List.suffix_cons _ _).trans (List.suffix_cons _ _))
  | case4 =>
    cases closed
    exact List.suffix_cons _ _
  | case5 d behind other ih =>
    obtain ⟨⟨content', text'⟩, inner, same⟩ := Option.map_eq_some_iff.mp closed
    cases same
    exact (ih inner).trans (List.suffix_cons _ _)

theorem wordToken_lexed {word : Str} (chars : ∀ c ∈ word, isIdentChar c) :
    Lexed (wordToken word start) := by
  by_cases keyword : isKeyword (word.map Char.toUpper)
  · simp only [wordToken, keyword, if_true]
    exact ⟨rfl, fun is => by cases is⟩
  · simp only [wordToken, keyword]
    exact ⟨rfl, fun _ => chars⟩

/-- One round steps over at least one character and makes at most one token. -/
theorem scanToken_spec {token : Option Token}
    (scans : scanToken start c rest = .ok (token, text)) :
    text <:+ rest ∧ ∀ t ∈ token, Lexed t := by
  have plain : ∀ {type value}, type ≠ .endOfInput → type ≠ .identifier →
      ∀ t ∈ some (⟨type, value, start⟩ : Token), Lexed t := by
    rintro type value inner other _ ⟨⟩
    exact ⟨decide_eq_false inner, fun is => absurd is other⟩
  have round := scanToken_round start c rest
  rw [scans] at round
  cases round with
  | blank => exact ⟨List.suffix_refl _, fun t none => by cases none⟩
  | word is =>
    refine ⟨List.dropWhile_suffix _, ?_⟩
    rintro _ ⟨⟩
    apply wordToken_lexed
    intro d member
    obtain rfl | member := List.mem_cons.mp member
    · exact isIdentChar_of_start is
    · exact List.mem_takeWhile_imp member
  | number => exact ⟨List.dropWhile_suffix _, plain (by decide) (by decide)⟩
  | string _ closed => exact ⟨stringBody_suffix closed, plain (by decide) (by decide)⟩
  | operator => exact ⟨List.suffix_refl _, plain (by decide) (by decide)⟩
  | paired => exact ⟨List.tail_suffix _, plain (by decide) (by decide)⟩
  | mark => exact ⟨List.suffix_refl _, plain (by decide) (by decide)⟩

/-- As many rounds as there are characters are enough. -/
theorem tokenizeFrom_spec {rounds : Nat} (enough : text.length ≤ rounds) :
    ∃ answer, tokenizeFrom rounds start text = some answer ∧
      ∀ tokens, answer = .ok tokens →
        ∃ body last, tokens = body ++ [last] ∧ last.isEnd ∧ ∀ t ∈ body, Lexed t := by
  induction rounds generalizing start text with
  | zero =>
    obtain rfl := List.length_eq_zero_iff.mp (Nat.le_zero.mp enough)
    refine ⟨_, rfl, ?_⟩
    rintro _ ⟨⟩
    exact ⟨[], _, rfl, rfl, fun _ none => by cases none⟩
  | succ rounds ih =>
    cases text with
    | nil =>
      refine ⟨_, rfl, ?_⟩
      rintro _ ⟨⟩
      exact ⟨[], _, rfl, rfl, fun _ none => by cases none⟩
    | cons c rest =>
      cases scans : scanToken start c rest with
      | error e =>
        refine ⟨.error e, by simp only [tokenizeFrom, scans], ?_⟩
        rintro _ ⟨⟩
      | ok scanned =>
        obtain ⟨token, behind⟩ := scanned
        obtain ⟨suffix, lexed⟩ := scanToken_spec scans
        have shorter : behind.length ≤ rounds := by
          have := suffix.length_le
          simp only [List.length_cons] at enough
          omega
        obtain ⟨answer, returns, shape⟩ := @ih (start + (rest.length + 1 - behind.length)) _ shorter
        refine ⟨answer.map fun tokens => token.toList ++ tokens, ?_, ?_⟩
        · simp only [tokenizeFrom, scans, returns, Option.map_some]
        · intro tokens is
          cases answer with
          | error e => cases is
          | ok tokens' =>
            cases is
            obtain ⟨body, last, rfl, ends, inner⟩ := shape _ rfl
            refine ⟨token.toList ++ body, last, (List.append_assoc ..).symm, ends, ?_⟩
            intro t member
            obtain member | member := List.mem_append.mp member
            · exact lexed t (Option.mem_toList.mp member)
            · exact inner t member

theorem tokenize_spec (input : Str) :
    ∃ answer, tokenize input = some answer ∧
      ∀ tokens, answer = .ok tokens →
        ∃ body last, tokens = body ++ [last] ∧ last.isEnd ∧ ∀ t ∈ body, Lexed t :=
  tokenizeFrom_spec (Nat.le_refl _)

end CppDB.Lexer
