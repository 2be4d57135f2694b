import CppDB.Query.Lexer.Stream

/-! Lexing a text that was put together from parts. A part is read with what follows it
in place, so that a seam cannot cut a word, a number, an operator or a literal in two; and
a literal whose quotes are doubled is read back as one token, whatever it holds. -/
namespace CppDB.Lexer

/-- The loop steps from one text at an offset to another, making the given tokens. -/
inductive Reads : Nat → Str → List Token → Nat → Str → Prop where
  | done {start : Nat} {text : Str} : Reads start text [] start text
  | round {start stop : Nat} {c : Char} {rest text more : Str} {token : Option Token}
      {tokens : List Token} (scans : scanToken start c rest = .ok (token, text))
      (reads : Reads (start + (rest.length + 1 - text.length)) text tokens stop more) :
      Reads start (c :: rest) (token.toList ++ tokens) stop more

variable {start stop : Nat} {c q : Char} {text rest more : Str} {token : Option Token}
  {tokens : List Token}

theorem Reads.trans {tokens' : List Token} {stop' : Nat} {more' : Str}
    (first : Reads start text tokens stop more) (second : Reads stop more tokens' stop' more') :
    Reads start text (tokens ++ tokens') stop' more' := by
  induction first with
  | done => exact second
  | round scans _ ih =>
    rw [List.append_assoc]
    exact .round scans (ih second)

/-! ### Rounds -/

/-- Rounds beyond the length of the text change nothing. -/
theorem tokenizeFrom_rounds {rounds : Nat} (enough : text.length ≤ rounds) :
    tokenizeFrom rounds start text = tokenizeFrom text.length start text := by
  induction rounds using Nat.strong_induction_on generalizing start text with
  | _ rounds ih =>
    cases text with
    | nil => cases rounds <;> rfl
    | cons c rest =>
      obtain ⟨rounds, rfl⟩ : ∃ n, rounds = n + 1 := ⟨rounds - 1, by
        rw [List.length_cons] at enough
        omega⟩
      rw [List.length_cons] at enough ⊢
      rw [tokenizeFrom, tokenizeFrom]
      cases scans : scanToken start c rest with
      | error e => rfl
      | ok scanned =>
        obtain ⟨token, text⟩ := scanned
        have shorter := (scanToken_spec scans).1.length_le
        simp only
        rw [ih rounds (Nat.lt_succ_self _) (by omega)]
        -- the same bound for the other side, unless it has the very same number of rounds
        by_cases same : rest.length = rounds
        · rw [same, ih rounds (Nat.lt_succ_self _) (by omega)]
        · rw [ih rest.length (by omega) shorter]

/-- The rest of a run of `tokenize`, at an offset. -/
def lexFrom (start : Nat) (text : Str) : Option (Except Exn (List Token)) :=
  tokenizeFrom text.length start text

theorem lexFrom_cons (start : Nat) (c : Char) (rest : Str) :
    lexFrom start (c :: rest) =
      match scanToken start c rest with
      | .error e => some (.error e)
      | .ok (token, text) =>
        (lexFrom (start + (rest.length + 1 - text.length)) text).map fun scanned =>
          scanned.map fun tokens => token.toList ++ tokens := by
  rw [lexFrom, List.length_cons, tokenizeFrom]
  cases scans : scanToken start c rest with
  | error e => rfl
  | ok scanned =>
    obtain ⟨token, text⟩ := scanned
    simp only [lexFrom, tokenizeFrom_rounds (scanToken_spec scans).1.length_le]

theorem lexFrom_of_reads (reads : Reads start text tokens stop more) :
    lexFrom start text =
      (lexFrom stop more).map fun scanned => scanned.map fun others => tokens ++ others := by
  induction reads with
  | done =>
    rename_i start text
    cases lexed : lexFrom start text with
    | none => rfl
    | some answer => cases answer <;> rfl
  | round scans _ ih =>
    rw [lexFrom_cons, scans]
    simp only [ih, Option.map_map]
    congr 1
    funext answer
    cases answer with
    | error e => rfl
    | ok others => simp [Except.map]

/-- What tokenizes has been read to its end. -/
theorem reads_of_lexFrom (lexes : lexFrom start text = some (.ok tokens)) :
    ∃ body, Reads start text body (start + text.length) [] ∧
      tokens = body ++ [⟨.endOfInput, [], start + text.length⟩] := by
  induction size : text.length using Nat.strong_induction_on generalizing start text tokens with
  | _ n ih =>
    cases text with
    | nil =>
      cases size
      cases lexes
      exact ⟨[], .done, rfl⟩
    | cons c rest =>
      rw [lexFrom_cons] at lexes
      cases scans : scanToken start c rest with
      | error e =>
        rw [scans] at lexes
        cases lexes
      | ok scanned =>
        obtain ⟨token, text⟩ := scanned
        rw [scans] at lexes
        obtain ⟨answer, returns, same⟩ := Option.map_eq_some_iff.mp lexes
        cases answer with
        | error e => cases same
        | ok others =>
          cases same
          have shorter := (scanToken_spec scans).1.length_le
          rw [List.length_cons] at size
          obtain ⟨body, reads, rfl⟩ := ih text.length (by omega) returns rfl
          have reaches : start + (rest.length + 1 - text.length) + text.length = start + n := by
            omega
          rw [reaches] at reads ⊢
          exact ⟨token.toList ++ body, .round scans reads, (List.append_assoc ..).symm⟩

/-! ### Seams -/

theorem takeWhile_seam {p : Char → Bool} (stops : p q = false) (rest more : Str) :
    (rest ++ q :: more).takeWhile p = rest.takeWhile p ∧
      (rest ++ q :: more).dropWhile p = rest.dropWhile p ++ q :: more := by
  induction rest with
  | nil => simp [stops]
  | cons c rest ih =>
    cases goes : p c <;> simp [goes, ih]

theorem stringBody_plain (other : c ≠ q) (rest : Str) :
    stringBody q (c :: rest) =
      (stringBody q rest).map fun (content, text) => (c :: content, text) := by
  cases rest <;> simp [stringBody, other]

theorem stringBody_doubled (q : Char) (rest : Str) :
    stringBody q (q :: q :: rest) =
      (stringBody q rest).map fun (content, text) => (q :: content, text) := by
  simp [stringBody]

theorem stringBody_closed (begins : rest.head? ≠ some q) :
    stringBody q (q :: rest) = some ([], rest) := by
  cases rest with
  | nil => simp [stringBody]
  | cons d behind =>
    have other : d ≠ q := fun same => begins (congrArg some same)
    simp [stringBody, other]

theorem stringBody_seam {content : Str} (closed : stringBody c rest = some (content, text))
    (apart : ¬ [q] <:+ rest) (more : Str) :
    stringBody c (rest ++ q :: more) = some (content, text ++ q :: more) := by
  fun_induction stringBody c rest generalizing content with
  | case1 => cases closed
  | case2 =>
    cases closed
    have other : q ≠ c := by
      rintro rfl
      exact apart (List.suffix_refl _)
    exact stringBody_closed (by simpa using other)
  | case3 behind ih =>
    obtain ⟨⟨content', text'⟩, inner, same⟩ := Option.map_eq_some_iff.mp closed
    cases same
    have apart' : ¬ [q] <:+ behind := fun ends =>
      apart (ends.trans ((List.suffix_cons _ _).trans (List.suffix_cons _ _)))
    rw [List.cons_append, List.cons_append, stringBody_doubled, ih inner apart']
    rfl
  | case4 d behind other =>
    cases closed
    exact stringBody_closed (by simpa using other)
  | case5 d behind other ih =>
    obtain ⟨⟨content', text'⟩, inner, same⟩ := Option.map_eq_some_iff.mp closed
    cases same
    have apart' : ¬ [q] <:+ behind := fun ends => apart (ends.trans (List.suffix_cons _ _))
    rw [List.cons_append, stringBody_plain other, ih inner apart']
    rfl

/-- A round is the same with a quote behind the text, if the text does not end in that quote. -/
theorem scanToken_seam (quote : IsQuote q)
    (scans : scanToken start c rest = .ok (token, text)) (apart : ¬ [q] <:+ c :: rest)
    (more : Str) : scanToken start c (rest ++ q :: more) = .ok (token, text ++ q :: more) := by
  have noWord : isIdentChar q = false := by rcases quote with rfl | rfl <;> decide
  have noDigit : q.isDigit = false := by rcases quote with rfl | rfl <;> decide
  have noEqual : q ≠ '=' := by rcases quote with rfl | rfl <;> decide
  have apart' : ¬ [q] <:+ rest := fun ends => apart (ends.trans (List.suffix_cons _ _))
  have words := takeWhile_seam noWord rest more
  have digits := takeWhile_seam noDigit rest more
  have signed : (rest ++ q :: more).head?.any Char.isDigit = rest.head?.any Char.isDigit := by
    cases rest <;> simp [noDigit]
  have paired : (rest ++ q :: more).head? = some '=' ↔ rest.head? = some '=' := by
    cases rest <;> simp [noEqual]
  have round := scanToken_round start c rest
  rw [scans] at round
  apply Round.scans
  cases round with
  | blank is => exact .blank is
  | word is =>
    rw [← words.1, ← words.2]
    exact .word is
  | number is =>
    rw [← digits.1, ← digits.2]
    exact .number (signed.symm ▸ is)
  | string is closed => exact .string is (stringBody_seam closed apart' more)
  | operator is => exact .operator (is.imp_right fun ⟨angle, alone⟩ => ⟨angle, alone ∘ paired.mp⟩)
  | paired is follows =>
    have tail : rest.tail ++ q :: more = (rest ++ q :: more).tail := by
      cases rest with
      | nil => cases follows
      | cons => rfl
    rw [tail]
    exact .paired is (paired.mpr follows)
  | mark is => exact .mark is

/-- A text that tokenizes is read the same way in front of a quote it does not end in. -/
theorem Reads.seam (quote : IsQuote q) (reads : Reads start text tokens stop [])
    (apart : ¬ [q] <:+ text) (more : Str) :
    Reads start (text ++ q :: more) tokens stop (q :: more) := by
  generalize ends : ([] : Str) = last at reads
  induction reads with
  | done =>
    subst ends
    exact .done
  | @round start stop c rest text last token tokens scans reads ih =>
    have suffix := (scanToken_spec scans).1
    have apart' : ¬ [q] <:+ text := fun ends =>
      apart (ends.trans (suffix.trans (List.suffix_cons _ _)))
    have scans' := scanToken_seam quote scans apart more
    apply Reads.round scans'
    have covered : (rest ++ q :: more).length + 1 - (text ++ q :: more).length =
        rest.length + 1 - text.length := by
      simp only [List.length_append, List.length_cons]
      omega
    rw [covered]
    exact ih apart' ends

/-! ### Offsets -/

/-- The token so much further on in the text. -/
def shifted (k : Nat) (token : Token) : Token := { token with position := token.position + k }

/-- A round does not look at its offset, but for the position of the token it makes. -/
theorem scanToken_at (scans : scanToken start c rest = .ok (token, text)) (start' : Nat) :
    scanToken start' c rest =
      .ok (token.map fun made => { made with position := start' }, text) := by
  have round := scanToken_round start c rest
  rw [scans] at round
  apply Round.scans
  cases round with
  | blank is => exact .blank is
  | word is =>
    have moved (word : Str) :
        { wordToken word start with position := start' } = wordToken word start' := by
      simp only [wordToken]
      split <;> rfl
    rw [Option.map_some, moved]
    exact .word is
  | number is => exact .number is
  | string is closed => exact .string is closed
  | operator is => exact .operator is
  | paired is follows => exact .paired is follows
  | mark is => exact .mark is

theorem scanToken_shift (scans : scanToken start c rest = .ok (token, text)) (k : Nat) :
    scanToken (start + k) c rest = .ok (token.map (shifted k), text) := by
  rw [scanToken_at scans]
  have placed := scans.symm.trans (scanToken_at scans start)
  cases token with
  | none => rfl
  | some made =>
    simp only [Except.ok.injEq, Prod.mk.injEq, Option.map_some, Option.some.injEq,
      and_true] at placed
    rw [placed]
    rfl

/-- A text lexes at another offset to the same tokens there, or fails there too. -/
theorem lexFrom_shift (start k : Nat) (text : Str) :
    (∃ tokens, lexFrom start text = some (.ok tokens) ∧
        lexFrom (start + k) text = some (.ok (tokens.map (shifted k)))) ∨
      ∃ e e', lexFrom start text = some (.error e) ∧
        lexFrom (start + k) text = some (.error e') := by
  induction size : text.length using Nat.strong_induction_on generalizing start text with
  | _ n ih =>
    cases text with
    | nil => exact .inl ⟨_, rfl, rfl⟩
    | cons c rest =>
      rw [lexFrom_cons, lexFrom_cons]
      cases scans : scanToken start c rest with
      | error e =>
        right
        cases scans' : scanToken (start + k) c rest with
        | error e' => exact ⟨e, e', rfl, rfl⟩
        | ok scanned =>
          obtain ⟨token, text⟩ := scanned
          cases scans.symm.trans (scanToken_at scans' start)
      | ok scanned =>
        obtain ⟨token, text⟩ := scanned
        have shorter := (scanToken_spec scans).1.length_le
        rw [List.length_cons] at size
        have later := ih text.length (by omega) (start + (rest.length + 1 - text.length)) text rfl
        rw [Nat.add_right_comm] at later
        rw [scanToken_shift scans k]
        simp only
        rcases later with ⟨tokens, lexes, lexes'⟩ | ⟨e, e', fails, fails'⟩
        · left
          rw [lexes, lexes']
          refine ⟨_, rfl, ?_⟩
          cases token <;> rfl
        · right
          rw [fails, fails']
          exact ⟨e, e', rfl, rfl⟩

/-! ### Literals -/

/-- The text with every quote doubled. -/
def escape (q : Char) (s : Str) : Str := s.flatMap fun c => if c = q then [q, q] else [c]

theorem stringBody_escape {post : Str} (begins : post.head? ≠ some q) (s : Str) :
    stringBody q (escape q s ++ q :: post) = some (s, post) := by
  induction s with
  | nil => exact stringBody_closed begins
  | cons c s ih =>
    have unfolds : escape q (c :: s) = (if c = q then [q, q] else [c]) ++ escape q s := rfl
    rw [unfolds]
    split
    case isTrue same =>
      subst same
      rw [List.append_assoc, List.cons_append, List.cons_append, stringBody_doubled,
        List.nil_append, ih]
      rfl
    case isFalse other =>
      rw [List.append_assoc, List.cons_append, stringBody_plain other, List.nil_append, ih]
      rfl

/-- An escaped literal is read as the one token it stands for. -/
theorem reads_literal (quote : IsQuote q) {post : Str} (begins : post.head? ≠ some q)
    (start : Nat) (s : Str) :
    Reads start (q :: (escape q s ++ q :: post)) [⟨.string, s, start⟩]
      (start + ((escape q s).length + 2)) post := by
  have scans : scanToken start q (escape q s ++ q :: post) =
      .ok (some ⟨.string, s, start⟩, post) := by
    unfold scanToken
    rw [stringBody_escape begins s]
    rcases quote with rfl | rfl <;> rfl
  have covered : (escape q s ++ q :: post).length + 1 - post.length = (escape q s).length + 2 := by
    simp only [List.length_append, List.length_cons]
    omega
  have reads := Reads.round scans .done
  rw [covered] at reads
  exact reads

/-- The query around a literal that holds an escaped text. -/
def embed (pre : Str) (q : Char) (s post : Str) : Str := pre ++ q :: (escape q s ++ q :: post)

/-- Token lists that differ in the value of one token, and in the positions behind it. -/
theorem agree_but_one (body after : List Token) (type : TokenType) (s₁ s₂ : Str)
    (start k₁ k₂ : Nat) :
    (body ++ ⟨type, s₁, start⟩ :: after.map (shifted k₁)).map Token.type =
        (body ++ ⟨type, s₂, start⟩ :: after.map (shifted k₂)).map Token.type ∧
      ((body ++ ⟨type, s₁, start⟩ :: after.map (shifted k₁)).map Token.value).eraseIdx
          body.length =
        ((body ++ ⟨type, s₂, start⟩ :: after.map (shifted k₂)).map Token.value).eraseIdx
          body.length := by
  have types (k : Nat) : (after.map (shifted k)).map Token.type = after.map Token.type := by
    simp [Function.comp_def, shifted]
  have values (k : Nat) : (after.map (shifted k)).map Token.value = after.map Token.value := by
    simp [Function.comp_def, shifted]
  constructor
  · rw [List.map_append, List.map_append, List.map_cons, List.map_cons, types, types]
  · rw [List.map_append, List.map_append, List.map_cons, List.map_cons, values, values,
      List.eraseIdx_append_of_length_le (by simp), List.eraseIdx_append_of_length_le (by simp)]
    simp

/-- The literal becomes one token between those of the two sides, which are as they are
alone; in particular the text it holds shows nowhere else. -/
theorem escaped_literal_is_inert (quote : IsQuote q) {pre post : Str}
    (lexes : tokenize pre = some (.ok tokens)) (ends : pre.getLast? ≠ some q)
    (begins : post.head? ≠ some q) :
    ∃ body, tokens = body ++ [⟨.endOfInput, [], pre.length⟩] ∧
      (∀ s, ((∃ e, tokenize (embed pre q s post) = some (.error e)) ↔
        ∃ e, tokenize post = some (.error e)) ∧
        ∀ after, tokenize post = some (.ok after) →
          tokenize (embed pre q s post) = some (.ok (body ++ ⟨.string, s, pre.length⟩ ::
            after.map (shifted (pre.length + ((escape q s).length + 2)))))) ∧
      ∀ s₁ s₂ tokens₁ tokens₂, tokenize (embed pre q s₁ post) = some (.ok tokens₁) →
        tokenize (embed pre q s₂ post) = some (.ok tokens₂) →
        tokens₁.map Token.type = tokens₂.map Token.type ∧
          (tokens₁.map Token.value).eraseIdx body.length =
            (tokens₂.map Token.value).eraseIdx body.length := by
  have apart : ¬ [q] <:+ pre := by
    rintro ⟨front, rfl⟩
    exact ends List.getLast?_concat
  obtain ⟨body, reads, rfl⟩ := reads_of_lexFrom lexes
  rw [Nat.zero_add] at reads ⊢
  have whole (s : Str) : tokenize (embed pre q s post) =
      (lexFrom (0 + (pre.length + ((escape q s).length + 2))) post).map fun scanned =>
        scanned.map fun others => (body ++ [⟨.string, s, pre.length⟩]) ++ others := by
    rw [Nat.zero_add]
    have across := (reads.seam quote apart _).trans (reads_literal quote begins pre.length s)
    exact lexFrom_of_reads across
  have inert (s : Str) : ((∃ e, tokenize (embed pre q s post) = some (.error e)) ↔
      ∃ e, tokenize post = some (.error e)) ∧
      ∀ after, tokenize post = some (.ok after) →
        tokenize (embed pre q s post) = some (.ok (body ++ ⟨.string, s, pre.length⟩ ::
          after.map (shifted (pre.length + ((escape q s).length + 2))))) := by
    rw [whole s]
    rcases lexFrom_shift 0 (pre.length + ((escape q s).length + 2)) post with
      ⟨after, alone, there⟩ | ⟨e, e', alone, there⟩
    · have same : tokenize post = some (.ok after) := alone
      rw [there, same]
      constructor
      · simp [Except.map]
      · rintro _ ⟨⟩
        simp [Except.map]
    · have same : tokenize post = some (.error e) := alone
      rw [there, same]
      constructor
      · simp [Except.map]
      · rintro _ ⟨⟩
  refine ⟨body, rfl, inert, ?_⟩
  intro s₁ s₂ tokens₁ tokens₂ lexes₁ lexes₂
  obtain ⟨answer, returns, -⟩ := tokenize_spec post
  cases answer with
  | error e =>
    obtain ⟨e', fails⟩ := (inert s₁).1.mpr ⟨e, returns⟩
    cases lexes₁.symm.trans fails
  | ok after =>
    cases lexes₁.symm.trans ((inert s₁).2 after returns)
    cases lexes₂.symm.trans ((inert s₂).2 after returns)
    exact agree_but_one ..

/-- A text that closes the literal and goes on, if its quotes are left as they are. -/
theorem escaped_literal_is_inert_hostile :
    (IsQuote '\'' ∧ tokenize "SET a = ".toList = some (.ok [⟨.keyword, "SET".toList, 0⟩,
        ⟨.identifier, "a".toList, 4⟩, ⟨.operator, "=".toList, 6⟩, ⟨.endOfInput, [], 8⟩])) ∧
      tokenize (embed "SET a = ".toList '\'' "', id = '1".toList " WHERE".toList) =
        some (.ok [⟨.keyword, "SET".toList, 0⟩, ⟨.identifier, "a".toList, 4⟩,
          ⟨.operator, "=".toList, 6⟩, ⟨.string, "', id = '1".toList, 8⟩,
          ⟨.keyword, "WHERE".toList, 23⟩, ⟨.endOfInput, [], 28⟩]) := by
  have lexes : tokenize "SET a = ".toList = some (.ok [⟨.keyword, "SET".toList, 0⟩,
      ⟨.identifier, "a".toList, 4⟩, ⟨.operator, "=".toList, 6⟩, ⟨.endOfInput, [], 8⟩]) := by
    decide +kernel
  refine ⟨⟨.inl rfl, lexes⟩, ?_⟩
  obtain ⟨body, split, inert, -⟩ :=
    escaped_literal_is_inert (.inl rfl : IsQuote '\'') lexes (by decide +kernel)
      (by decide +kernel : " WHERE".toList.head? ≠ some '\'')
  have alone : tokenize " WHERE".toList =
      some (.ok [⟨.keyword, "WHERE".toList, 1⟩, ⟨.endOfInput, [], 6⟩]) := by decide +kernel
  obtain rfl : [⟨.keyword, "SET".toList, 0⟩, ⟨.identifier, "a".toList, 4⟩,
      ⟨.operator, "=".toList, 6⟩] = body := List.append_cancel_right split
  exact (inert "', id = '1".toList).2 _ alone

end CppDB.Lexer
