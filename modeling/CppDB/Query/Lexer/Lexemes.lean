import CppDB.Query.Lexer.Seams

/-! The texts of tokens. A text tokenizes exactly if it is laid out as lexemes between
blanks, each going as far as it can; so the tokens account for every byte of the query, and
writing tokens with blanks between them and lexing the result gives them back. -/
namespace CppDB.Lexer

/-- What a token is apart from where it stands. -/
def kind (token : Token) : TokenType × Str := (token.type, token.value)

def operators : List Str := ["=", "!=", "<", "<=", ">", ">="].map String.toList

def marks : List Str := ["(", ")", ",", "*"].map String.toList

/-- The texts of a token of a type and a value. -/
inductive Lexeme : TokenType → Str → Str → Prop where
  | keyword {text : Str} (known : isKeyword (text.map Char.toUpper) = true) :
      Lexeme .keyword (text.map Char.toUpper) text
  | identifier {c : Char} {word : Str} (starts : isIdentStart c = true)
      (goes : ∀ d ∈ word, isIdentChar d = true)
      (other : isKeyword ((c :: word).map Char.toUpper) = false) :
      Lexeme .identifier (c :: word) (c :: word)
  | number {sign digits : Str} (signed : sign = [] ∨ sign = ['-']) (some : digits ≠ [])
      (goes : ∀ d ∈ digits, d.isDigit = true) : Lexeme .number (sign ++ digits) (sign ++ digits)
  | string {q : Char} (quote : IsQuote q) (content : Str) :
      Lexeme .string content (q :: (escape q content ++ [q]))
  | operator {text : Str} (listed : text ∈ operators) : Lexeme .operator text text
  | punctuation {text : Str} (listed : text ∈ marks) : Lexeme .punctuation text text

/-- The characters that would make a longer lexeme, or another one, of a lexeme in front
of them. -/
def lengthens (type : TokenType) (text : Str) (d : Char) : Bool :=
  match type with
  | .keyword | .identifier => isIdentChar d
  | .number => d.isDigit
  | .string => text.head? = some d
  | .operator => (text = ['<'] ∨ text = ['>']) ∧ d = '='
  | .punctuation | .endOfInput => false

/-- The text behind a lexeme leaves it as it is. -/
def Clear (type : TokenType) (text behind : Str) : Prop :=
  ∀ d, behind.head? = some d → lengthens type text d = false

/-! ### One lexeme -/

variable {start : Nat} {c q : Char} {type : TokenType} {value text rest behind : Str}

theorem isIdentStart_of_toUpper (upper : c.toUpper.isUpper = true) : isIdentStart c = true := by
  rw [Char.isUpper, decide_eq_true_eq] at upper
  rw [isIdentStart_iff]
  by_cases lower : 97 ≤ c.toNat ∧ c.toNat ≤ 122
  · exact .inr (.inl lower)
  · have same : c.toUpper = c := by
      rw [Char.toUpper, dif_neg]
      exact lower
    exact .inl (same ▸ upper)

theorem keywords_letters : ∀ word ∈ keywords, word ≠ [] ∧ ∀ d ∈ word, d.isUpper = true := by
  simp [keywords]

/-- A keyword in any case is a word. -/
theorem word_of_isKeyword (known : isKeyword (text.map Char.toUpper) = true) :
    ∃ c word, text = c :: word ∧ isIdentStart c = true ∧ ∀ d ∈ word, isIdentChar d = true := by
  obtain ⟨some, letters⟩ := keywords_letters _ (of_decide_eq_true known)
  have starts : ∀ d ∈ text, isIdentStart d = true := by
    intro d there
    exact isIdentStart_of_toUpper (letters _ (List.mem_map_of_mem there))
  cases text with
  | nil => exact absurd rfl some
  | cons c word =>
    refine ⟨c, word, rfl, starts c (by simp), ?_⟩
    intro d there
    exact isIdentChar_of_start (starts d (by simp [there]))

/-- A run of characters of a class is taken as far as it goes, and no further than the
text behind it lets it. -/
theorem takeWhile_run {p : Char → Bool} (all : ∀ d ∈ text, p d = true)
    (stops : ∀ d, behind.head? = some d → p d = false) :
    (text ++ behind).takeWhile p = text ∧ (text ++ behind).dropWhile p = behind := by
  have none : behind.takeWhile p = [] ∧ behind.dropWhile p = behind := by
    cases behind with
    | nil => exact ⟨rfl, rfl⟩
    | cons d behind => simp [stops d rfl]
  rw [List.takeWhile_append_of_pos all, List.dropWhile_append_of_pos all, none.1, none.2,
    List.append_nil]
  exact ⟨rfl, rfl⟩

theorem stringBody_eq_some {content : Str} (closed : stringBody q rest = some (content, behind)) :
    rest = escape q content ++ q :: behind ∧ behind.head? ≠ some q := by
  fun_induction stringBody q rest generalizing content with
  | case1 => cases closed
  | case2 =>
    cases closed
    exact ⟨rfl, by simp⟩
  | case3 more ih =>
    obtain ⟨⟨content', behind'⟩, inner, same⟩ := Option.map_eq_some_iff.mp closed
    cases same
    obtain ⟨split, begins⟩ := ih inner
    exact ⟨by simp [escape, split], begins⟩
  | case4 d more other =>
    cases closed
    exact ⟨rfl, by simpa using other⟩
  | case5 d more other ih =>
    obtain ⟨⟨content', behind'⟩, inner, same⟩ := Option.map_eq_some_iff.mp closed
    cases same
    obtain ⟨split, begins⟩ := ih inner
    exact ⟨by simp [escape, other, split], begins⟩

/-- A lexeme is scanned as its token if the text behind it leaves it as it is. -/
theorem Lexeme.scans (lexeme : Lexeme type value text) (clear : Clear type text behind)
    (start : Nat) :
    ∃ c rest, text = c :: rest ∧
      scanToken start c (rest ++ behind) = .ok (some ⟨type, value, start⟩, behind) := by
  cases lexeme with
  | keyword known =>
    obtain ⟨c, word, rfl, starts, goes⟩ := word_of_isKeyword known
    obtain ⟨takes, drops⟩ := takeWhile_run goes clear
    refine ⟨c, word, rfl, ?_⟩
    rw [(Round.word starts).scans, takes, drops, wordToken, if_pos known]
  | @identifier c word starts goes other =>
    obtain ⟨takes, drops⟩ := takeWhile_run goes clear
    refine ⟨c, word, rfl, ?_⟩
    rw [(Round.word starts).scans, takes, drops, wordToken, other, if_neg Bool.false_ne_true]
  | @number sign digits signed some goes =>
    obtain ⟨d, more, rfl⟩ := List.exists_cons_of_ne_nil some
    have digit := goes d (by simp)
    rcases signed with rfl | rfl
    · have goes' : ∀ e ∈ more, e.isDigit = true := fun e there => goes e (by simp [there])
      obtain ⟨takes, drops⟩ := takeWhile_run goes' clear
      refine ⟨d, more, rfl, ?_⟩
      rw [(Round.number (.inl digit)).scans, takes, drops]
      rfl
    · obtain ⟨takes, drops⟩ := takeWhile_run goes clear
      refine ⟨'-', d :: more, rfl, ?_⟩
      rw [(Round.number (.inr ⟨rfl, by simpa using digit⟩)).scans, takes, drops]
      rfl
  | @string q quote =>
    have begins : behind.head? ≠ some q := by
      intro same
      simpa [lengthens] using clear q same
    refine ⟨q, _, rfl, ?_⟩
    rw [List.append_assoc]
    exact (Round.string quote (stringBody_escape begins value)).scans
  | operator listed =>
    have alone : (value = ['<'] ∨ value = ['>']) → behind.head? ≠ some '=' := by
      intro angle same
      simpa [lengthens, angle] using clear '=' same
    simp only [operators, List.map_cons, List.map_nil, List.mem_cons, List.not_mem_nil,
      or_false] at listed
    rcases listed with rfl | rfl | rfl | rfl | rfl | rfl
    · exact ⟨'=', [], rfl, (Round.operator (.inl rfl)).scans⟩
    · exact ⟨'!', ['='], rfl, (Round.paired (.inr (.inr rfl)) rfl).scans⟩
    · exact ⟨'<', [], rfl, (Round.operator (.inr ⟨.inl rfl, alone (.inl rfl)⟩)).scans⟩
    · exact ⟨'<', ['='], rfl, (Round.paired (.inl rfl) rfl).scans⟩
    · exact ⟨'>', [], rfl, (Round.operator (.inr ⟨.inr rfl, alone (.inr rfl)⟩)).scans⟩
    · exact ⟨'>', ['='], rfl, (Round.paired (.inr (.inl rfl)) rfl).scans⟩
  | punctuation listed =>
    simp only [marks, List.map_cons, List.map_nil, List.mem_cons, List.not_mem_nil,
      or_false] at listed
    rcases listed with rfl | rfl | rfl | rfl
    · exact ⟨'(', [], rfl, (Round.mark (.inl rfl)).scans⟩
    · exact ⟨')', [], rfl, (Round.mark (.inr (.inl rfl))).scans⟩
    · exact ⟨',', [], rfl, (Round.mark (.inr (.inr (.inl rfl)))).scans⟩
    · exact ⟨'*', [], rfl, (Round.mark (.inr (.inr (.inr rfl)))).scans⟩

theorem mem_takeWhile_all {p : Char → Bool} (rest : Str) : ∀ d ∈ rest.takeWhile p, p d = true :=
  fun _ there => List.mem_takeWhile_imp there

theorem dropWhile_stops {p : Char → Bool} (rest : Str) :
    ∀ d, (rest.dropWhile p).head? = some d → p d = false := by
  intro d begins
  have stops := List.head?_dropWhile_not p rest
  rw [begins] at stops
  simpa using stops

/-- A token is made of a lexeme that goes as far as it can. -/
theorem scanToken_lexeme {token : Token}
    (scans : scanToken start c rest = .ok (some token, behind)) :
    ∃ text, c :: rest = text ++ behind ∧ Lexeme token.type token.value text ∧
      token.position = start ∧ Clear token.type text behind := by
  have round := scanToken_round start c rest
  rw [scans] at round
  cases round with
  | word starts =>
    have split : c :: rest =
        (c :: rest.takeWhile isIdentChar) ++ rest.dropWhile isIdentChar := by simp
    by_cases known : isKeyword ((c :: rest.takeWhile isIdentChar).map Char.toUpper) = true
    · rw [wordToken, if_pos known]
      exact ⟨_, split, .keyword known, rfl, dropWhile_stops rest⟩
    · rw [wordToken, if_neg known]
      exact ⟨_, split, .identifier starts (mem_takeWhile_all rest) (by simpa using known), rfl,
        dropWhile_stops rest⟩
  | number is =>
    have split : c :: rest =
        (c :: rest.takeWhile Char.isDigit) ++ rest.dropWhile Char.isDigit := by simp
    refine ⟨_, split, ?_, rfl, dropWhile_stops rest⟩
    rcases is with digit | ⟨rfl, follows⟩
    · have goes : ∀ d ∈ c :: rest.takeWhile Char.isDigit, d.isDigit = true := by
        intro d there
        obtain rfl | there := List.mem_cons.mp there
        · exact digit
        · exact List.mem_takeWhile_imp there
      exact .number (.inl rfl) (by simp) goes
    · have some : rest.takeWhile Char.isDigit ≠ [] := by
        cases rest with
        | nil => cases follows
        | cons d rest => simp_all
      exact .number (.inr rfl) some (mem_takeWhile_all rest)
  | string quote closed =>
    obtain ⟨rfl, begins⟩ := stringBody_eq_some closed
    refine ⟨_, by simp, .string quote _, rfl, ?_⟩
    intro d same
    have other : c ≠ d := fun equal => begins (equal ▸ same)
    simpa [lengthens] using other
  | operator is =>
    refine ⟨[c], rfl, .operator ?_, rfl, ?_⟩
    · rcases is with rfl | ⟨rfl | rfl, -⟩ <;> simp [operators]
    · intro d same
      rcases is with rfl | ⟨-, alone⟩
      · simp [lengthens]
      · have other : d ≠ '=' := fun equal => alone (equal ▸ same)
        simp [lengthens, other]
  | paired is follows =>
    obtain ⟨more, rfl⟩ : ∃ more, rest = '=' :: more := List.head?_eq_some_iff.mp follows
    refine ⟨[c, '='], rfl, .operator ?_, rfl, ?_⟩
    · rcases is with rfl | rfl | rfl <;> simp [operators]
    · intro d same
      simp [lengthens]
  | mark is =>
    refine ⟨[c], rfl, .punctuation ?_, rfl, fun _ _ => rfl⟩
    rcases is with rfl | rfl | rfl | rfl <;> simp [marks]

/-! ### Layouts -/

/-- Nothing but whitespace. -/
def Blank (gap : Str) : Prop := ∀ c ∈ gap, isSpace c = true

/-- The text from an offset on is the lexemes of the tokens, each at the token's position,
with nothing but blanks between them and none of them cut short. -/
inductive Layout : Nat → List Token → Str → Prop where
  | blank {start : Nat} {gap : Str} (is : Blank gap) : Layout start [] gap
  | token {start : Nat} {token : Token} {tokens : List Token} {gap text behind : Str}
      (is : Blank gap) (lexeme : Lexeme token.type token.value text)
      (placed : token.position = start + gap.length) (clear : Clear token.type text behind)
      (others : Layout (token.position + text.length) tokens behind) :
      Layout start (token :: tokens) (gap ++ (text ++ behind))

variable {stop : Nat} {gap more : Str} {tokens : List Token}

theorem Reads.of_blank (is : Blank gap) (start : Nat) (more : Str) :
    Reads start (gap ++ more) [] (start + gap.length) more := by
  induction gap generalizing start with
  | nil => exact .done
  | cons c gap ih =>
    have skips : scanToken start c (gap ++ more) = .ok (none, gap ++ more) :=
      (Round.blank (is c (by simp))).scans
    have later := ih (fun d there => is d (by simp [there])) (start + 1)
    refine Reads.round skips ?_
    have length : start + ((gap ++ more).length + 1 - (gap ++ more).length) = start + 1 := by omega
    have reaches : start + (c :: gap).length = start + 1 + gap.length := by
      rw [List.length_cons]
      omega
    rw [length, reaches]
    exact later

theorem Reads.of_lexeme (lexeme : Lexeme type value text) (clear : Clear type text behind)
    (start : Nat) :
    Reads start (text ++ behind) [⟨type, value, start⟩] (start + text.length) behind := by
  obtain ⟨c, rest, rfl, scans⟩ := lexeme.scans clear start
  have reads := Reads.round scans .done
  have length : (rest ++ behind).length + 1 - behind.length = (c :: rest).length := by
    simp only [List.length_append, List.length_cons]
    omega
  rw [length] at reads
  exact reads

/-- A layout is read to its end. -/
theorem Layout.reads (layout : Layout start tokens text) :
    Reads start text tokens (start + text.length) [] := by
  induction layout with
  | @blank start gap is =>
    have skips := Reads.of_blank is start []
    rwa [List.append_nil] at skips
  | @token start token tokens gap text behind is lexeme placed clear others ih =>
    have skips := Reads.of_blank is start (text ++ behind)
    rw [← placed] at skips
    have makes := Reads.of_lexeme lexeme clear token.position
    have length : start + (gap ++ (text ++ behind)).length =
        token.position + text.length + behind.length := by
      simp only [List.length_append]
      omega
    rw [length]
    exact skips.trans (makes.trans ih)

/-- A blank in front moves the layout. -/
theorem Layout.skip (layout : Layout (start + 1) tokens text) (is : isSpace c = true) :
    Layout start tokens (c :: text) := by
  have longer {gap : Str} (blank : Blank gap) : Blank (c :: gap) := by
    intro d there
    obtain rfl | there := List.mem_cons.mp there
    · exact is
    · exact blank d there
  cases layout with
  | blank blank => exact .blank (longer blank)
  | @token _ token tokens gap text behind blank lexeme placed clear others =>
    have placed' : token.position = start + (c :: gap).length := by
      rw [List.length_cons]
      omega
    exact .token (longer blank) lexeme placed' clear others

/-- What was read to its end is laid out as the tokens made. -/
theorem Reads.layout (reads : Reads start text tokens stop []) : Layout start tokens text := by
  generalize ends : ([] : Str) = last at reads
  induction reads with
  | done =>
    subst ends
    exact .blank fun c there => by cases there
  | @round start stop c rest behind last token tokens scans reads ih =>
    have layout := ih ends
    cases token with
    | none =>
      -- only a blank makes no token
      have round := scanToken_round start c rest
      rw [scans] at round
      cases round with
      | blank is =>
        rw [Nat.add_sub_cancel_left] at layout
        exact layout.skip is
    | some token =>
      obtain ⟨text, split, lexeme, placed, clear⟩ := scanToken_lexeme scans
      have length : start + (rest.length + 1 - behind.length) = token.position + text.length := by
        have lengths := congrArg List.length split
        simp only [List.length_append, List.length_cons] at lengths
        omega
      rw [length] at layout
      rw [split]
      exact @Layout.token _ _ _ [] _ _ (fun c there => by cases there) lexeme placed clear layout

/-- A query tokenizes to the tokens it is a layout of, and to nothing else. -/
theorem tokenize_eq_ok_iff {input : Str} :
    tokenize input = some (.ok tokens) ↔
      ∃ body, tokens = body ++ [⟨.endOfInput, [], input.length⟩] ∧ Layout 0 body input := by
  constructor
  · intro lexes
    obtain ⟨body, reads, rfl⟩ := reads_of_lexFrom lexes
    exact ⟨body, by rw [Nat.zero_add], reads.layout⟩
  · rintro ⟨body, rfl, layout⟩
    have lexes := lexFrom_of_reads layout.reads
    rw [Nat.zero_add] at lexes
    exact lexes

theorem Lexeme.ne_nil (lexeme : Lexeme type value text) : text ≠ [] := by
  have clear : Clear type text [] := fun d none => by cases none
  obtain ⟨c, rest, rfl, -⟩ := lexeme.scans clear 0
  exact List.cons_ne_nil c rest

/-- A lexeme alone is one token. -/
theorem Lexeme.alone (lexeme : Lexeme type value text) :
    tokenize text = some (.ok [⟨type, value, 0⟩, ⟨.endOfInput, [], text.length⟩]) := by
  have layout : Layout 0 [⟨type, value, 0⟩] ([] ++ (text ++ [])) :=
    .token (fun c there => by cases there) lexeme rfl (fun d none => by cases none)
      (.blank fun c there => by cases there)
  rw [List.nil_append, List.append_nil] at layout
  exact tokenize_eq_ok_iff.mpr ⟨_, rfl, layout⟩

/-- The positions go up, from the start of the text to its end. -/
theorem Layout.positions (layout : Layout start tokens text) :
    (tokens.map Token.position ++ [start + text.length]).Pairwise (· < ·) ∧
      ∀ p ∈ tokens.map Token.position ++ [start + text.length], start ≤ p := by
  induction layout with
  | blank => simp
  | @token start token tokens gap text behind is lexeme placed clear others ih =>
    have length : start + (gap ++ (text ++ behind)).length =
        token.position + text.length + behind.length := by
      simp only [List.length_append]
      omega
    have some := List.length_pos_iff.mpr lexeme.ne_nil
    rw [length, List.map_cons, List.cons_append]
    refine ⟨List.pairwise_cons.mpr ⟨?_, ih.1⟩, ?_⟩
    · intro p there
      have later := ih.2 p there
      omega
    · intro p there
      obtain rfl | there := List.mem_cons.mp there
      · omega
      · have later := ih.2 p there
        omega

theorem Layout.lexeme (layout : Layout start tokens text) :
    ∀ token ∈ tokens, ∃ lexeme, Lexeme token.type token.value lexeme := by
  induction layout with
  | blank =>
    intro token there
    cases there
  | token _ lexeme _ _ _ ih =>
    intro token there
    obtain rfl | there := List.mem_cons.mp there
    · exact ⟨_, lexeme⟩
    · exact ih token there

/-- Every query is answered; and where it tokenizes, it is the lexemes of its tokens in
order, each at its token's position and nothing but whitespace around them. A lexeme alone
is its token, and no word or number could have been longer. -/
theorem tokens_account_for_input (input : Str) :
    (∃ answer, tokenize input = some answer) ∧
      (∀ tokens, tokenize input = some (.ok tokens) →
        ∃ body, tokens = body ++ [⟨.endOfInput, [], input.length⟩] ∧
          (tokens.map Token.position).Pairwise (· < ·) ∧ Layout 0 body input) ∧
      ∀ type value text, Lexeme type value text →
        tokenize text = some (.ok [⟨type, value, 0⟩, ⟨.endOfInput, [], text.length⟩]) := by
  refine ⟨?_, ?_, fun _ _ _ lexeme => lexeme.alone⟩
  · obtain ⟨answer, returns, -⟩ := tokenize_spec input
    exact ⟨answer, returns⟩
  · intro tokens lexes
    obtain ⟨body, rfl, layout⟩ := tokenize_eq_ok_iff.mp lexes
    refine ⟨body, rfl, ?_, layout⟩
    have positions := layout.positions.1
    rw [Nat.zero_add] at positions
    rw [List.map_append]
    exact positions

/-- Tokens that touch each other. -/
theorem tokens_account_for_input_tight :
    tokenize ['a', '<', '-', '5'] = some (.ok [⟨.identifier, ['a'], 0⟩, ⟨.operator, ['<'], 1⟩,
        ⟨.number, ['-', '5'], 2⟩, ⟨.endOfInput, [], 4⟩]) ∧
      Layout 0 [⟨.identifier, ['a'], 0⟩, ⟨.operator, ['<'], 1⟩, ⟨.number, ['-', '5'], 2⟩]
        ['a', '<', '-', '5'] := by
  have lexes : tokenize ['a', '<', '-', '5'] = some (.ok [⟨.identifier, ['a'], 0⟩,
      ⟨.operator, ['<'], 1⟩, ⟨.number, ['-', '5'], 2⟩, ⟨.endOfInput, [], 4⟩]) := by
    decide +kernel
  obtain ⟨body, split, -, layout⟩ :=
    (tokens_account_for_input ['a', '<', '-', '5']).2.1 _ lexes
  obtain rfl : [⟨.identifier, ['a'], 0⟩, ⟨.operator, ['<'], 1⟩, ⟨.number, ['-', '5'], 2⟩] = body :=
    List.append_cancel_right split
  exact ⟨lexes, layout⟩

/-! ### Renderings -/

/-- Some query has a token of this kind, and not as its end. -/
def Producible (made : TokenType × Str) : Prop :=
  made.1 ≠ .endOfInput ∧
    ∃ input tokens, tokenize input = some (.ok tokens) ∧ made ∈ tokens.map kind

/-- The tokens written one after the other with whitespace between any two of them. -/
inductive Rendering : List (TokenType × Str) → Str → Prop where
  | blank {gap : Str} (is : Blank gap) : Rendering [] gap
  | token {type : TokenType} {value gap text behind : Str} {others : List (TokenType × Str)}
      (is : Blank gap) (lexeme : Lexeme type value text)
      (apart : others ≠ [] → ∃ c, behind.head? = some c ∧ isSpace c = true)
      (rest : Rendering others behind) :
      Rendering ((type, value) :: others) (gap ++ (text ++ behind))

/-- Whitespace lengthens no lexeme. -/
theorem Lexeme.clear_of_space (lexeme : Lexeme type value text)
    (space : ∀ c, behind.head? = some c → isSpace c = true) : Clear type text behind := by
  intro d begins
  have is := isSpace_iff.mp (space d begins)
  have noDigit : d.isDigit = false := by
    rw [← Bool.not_eq_true, isDigit_iff]
    omega
  have noWord : isIdentChar d = false := by
    have noStart : isIdentStart d = false := by
      rw [← Bool.not_eq_true, isIdentStart_iff]
      omega
    simp only [isIdentStart, Bool.or_eq_false_iff] at noStart
    simp [isIdentChar, Char.isAlphanum, noStart, noDigit]
  have others : d ≠ '\'' ∧ d ≠ '"' ∧ d ≠ '=' := by
    refine ⟨?_, ?_, ?_⟩ <;> rintro rfl <;> revert is <;> decide
  cases lexeme with
  | keyword => exact noWord
  | identifier => exact noWord
  | number => exact noDigit
  | string quote => rcases quote with rfl | rfl <;> simp [lengthens, others, eq_comm]
  | operator => simp [lengthens, others]
  | punctuation => rfl

variable {kinds : List (TokenType × Str)}

/-- A rendering is a layout of tokens of those kinds. -/
theorem Rendering.layout (rendering : Rendering kinds text) (start : Nat) :
    ∃ tokens, tokens.map kind = kinds ∧ Layout start tokens text := by
  induction rendering generalizing start with
  | blank is => exact ⟨[], rfl, .blank is⟩
  | @token type value gap text behind others is lexeme apart rest ih =>
    obtain ⟨tokens, same, layout⟩ := ih (start + gap.length + text.length)
    have space : ∀ c, behind.head? = some c → isSpace c = true := by
      intro c begins
      cases rest with
      | blank is => exact is c (List.mem_of_mem_head? begins)
      | token =>
        obtain ⟨c', begins', is'⟩ := apart (by simp)
        cases begins.symm.trans begins'
        exact is'
    refine ⟨⟨type, value, start + gap.length⟩ :: tokens, by simp [kind, same], ?_⟩
    exact .token is lexeme rfl (lexeme.clear_of_space space) layout

theorem exists_rendering (lexemes : ∀ made ∈ kinds, ∃ text, Lexeme made.1 made.2 text) :
    ∃ text, Rendering kinds text := by
  -- a blank in front of every token, so that those behind one are apart from it
  suffices spaced : ∃ text, Rendering kinds text ∧ (kinds ≠ [] → text.head? = some ' ') by
    obtain ⟨text, rendering, -⟩ := spaced
    exact ⟨text, rendering⟩
  induction kinds with
  | nil => exact ⟨[], .blank fun c there => (by cases there), fun some => absurd rfl some⟩
  | cons made kinds ih =>
    obtain ⟨behind, rendering, begins⟩ := ih fun other there => lexemes other (by simp [there])
    obtain ⟨text, lexeme⟩ := lexemes made (by simp)
    have blank : Blank [' '] := by
      intro c there
      obtain rfl := List.mem_singleton.mp there
      rfl
    exact ⟨[' '] ++ (text ++ behind),
      .token blank lexeme (fun some => ⟨' ', begins some, rfl⟩) rendering, fun _ => rfl⟩

theorem producible_iff :
    Producible (type, value) ↔ ∃ text, Lexeme type value text := by
  constructor
  · rintro ⟨inner, input, tokens, lexes, there⟩
    obtain ⟨body, rfl, layout⟩ := tokenize_eq_ok_iff.mp lexes
    obtain ⟨token, listed, same⟩ := List.mem_map.mp there
    cases same
    rcases List.mem_append.mp listed with made | ends
    · exact layout.lexeme token made
    · obtain rfl := List.mem_singleton.mp ends
      exact absurd rfl inner
  · rintro ⟨text, lexeme⟩
    refine ⟨?_, text, _, lexeme.alone, by simp [kind]⟩
    rintro rfl
    cases lexeme

theorem Rendering.lexes_back (rendering : Rendering kinds text) :
    ∃ tokens, tokenize text = some (.ok tokens) ∧
      tokens.map kind = kinds ++ [(.endOfInput, [])] := by
  obtain ⟨tokens, same, layout⟩ := rendering.layout 0
  exact ⟨_, tokenize_eq_ok_iff.mpr ⟨tokens, rfl, layout⟩, by rw [List.map_append, same]; rfl⟩

/-- Tokens that queries can have, written with whitespace between them in any of their
spellings, are lexed back; so are the tokens of any query, written out again. -/
theorem rendering_lexes_back :
    (∀ type value, Producible (type, value) ↔ ∃ text, Lexeme type value text) ∧
      (∀ kinds, (∀ made ∈ kinds, Producible made) →
        (∃ text, Rendering kinds text) ∧
          ∀ text, Rendering kinds text → ∃ tokens, tokenize text = some (.ok tokens) ∧
            tokens.map kind = kinds ++ [(.endOfInput, [])]) ∧
      ∀ input tokens, tokenize input = some (.ok tokens) →
        ∃ kinds, tokens.map kind = kinds ++ [(.endOfInput, [])] ∧
          (∃ text, Rendering kinds text) ∧
          ∀ text, Rendering kinds text → ∃ again, tokenize text = some (.ok again) ∧
            again.map kind = tokens.map kind := by
  refine ⟨fun _ _ => producible_iff, ?_, ?_⟩
  · intro kinds producible
    have lexemes : ∀ made ∈ kinds, ∃ text, Lexeme made.1 made.2 text :=
      fun made there => producible_iff.mp (producible made there)
    exact ⟨exists_rendering lexemes, fun _ rendering => rendering.lexes_back⟩
  · intro input tokens lexes
    obtain ⟨body, rfl, layout⟩ := tokenize_eq_ok_iff.mp lexes
    refine ⟨body.map kind, by rw [List.map_append]; rfl, ?_, ?_⟩
    · apply exists_rendering
      intro made there
      obtain ⟨token, listed, rfl⟩ := List.mem_map.mp there
      exact layout.lexeme token listed
    · intro text rendering
      obtain ⟨again, lexes', same⟩ := rendering.lexes_back
      exact ⟨again, lexes', by rw [same, List.map_append]; rfl⟩

/-- The text `sEt '''' -07`, with a line break in it. -/
theorem rendering_lexes_back_mixed :
    Rendering [(.keyword, ['S', 'E', 'T']), (.string, ['\'']), (.number, ['-', '0', '7'])]
        ['s', 'E', 't', ' ', '\'', '\'', '\'', '\'', '\n', ' ', '-', '0', '7'] ∧
      ∃ tokens,
        tokenize ['s', 'E', 't', ' ', '\'', '\'', '\'', '\'', '\n', ' ', '-', '0', '7'] =
          some (.ok tokens) ∧
        tokens.map kind = [(.keyword, ['S', 'E', 'T']), (.string, ['\'']),
          (.number, ['-', '0', '7']), (.endOfInput, [])] := by
  have word : Lexeme .keyword ['S', 'E', 'T'] ['s', 'E', 't'] :=
    @Lexeme.keyword ['s', 'E', 't'] (by decide +kernel)
  have literal : Lexeme .string ['\''] ['\'', '\'', '\'', '\''] := .string (.inl rfl) ['\'']
  have number : Lexeme .number ['-', '0', '7'] ['-', '0', '7'] :=
    @Lexeme.number ['-'] ['0', '7'] (.inr rfl) (by simp) (by simp)
  have rendering :
      Rendering [(.keyword, ['S', 'E', 'T']), (.string, ['\'']), (.number, ['-', '0', '7'])]
        ['s', 'E', 't', ' ', '\'', '\'', '\'', '\'', '\n', ' ', '-', '0', '7'] := by
    have third : Rendering [(.number, ['-', '0', '7'])] ['\n', ' ', '-', '0', '7'] :=
      @Rendering.token _ _ ['\n', ' '] _ [] _ (by simp [Blank, isSpace]) number
        (fun some => absurd rfl some) (.blank fun c there => by cases there)
    have second : Rendering [(.string, ['\'']), (.number, ['-', '0', '7'])]
        [' ', '\'', '\'', '\'', '\'', '\n', ' ', '-', '0', '7'] :=
      @Rendering.token _ _ [' '] _ _ _ (by simp [Blank, isSpace]) literal
        (fun _ => ⟨'\n', rfl, rfl⟩) third
    exact @Rendering.token _ _ [] _ _ _ (fun c there => by cases there) word
      (fun _ => ⟨' ', rfl, rfl⟩) second
  have producible : ∀ made ∈ [(.keyword, ['S', 'E', 'T']), (.string, ['\'']),
      (.number, ['-', '0', '7'])], Producible made := by
    intro made there
    simp only [List.mem_cons, List.not_mem_nil, or_false] at there
    rcases there with rfl | rfl | rfl
    · exact producible_iff.mpr ⟨_, word⟩
    · exact producible_iff.mpr ⟨_, literal⟩
    · exact producible_iff.mpr ⟨_, number⟩
  exact ⟨rendering, (rendering_lexes_back.2.1 _ producible).2 _ rendering⟩

end CppDB.Lexer
