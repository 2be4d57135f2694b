import CppDB.Query.Parser.Grammar

/-! The parser reads exactly the grammar: one rule per parsing function, assembled from
the rules of recursive descent. -/
namespace CppDB.Parser

open Descent Grammar

variable {follow : Token → Prop} {α : Type}

theorem isEnd_of_type {token : Token} {type : TokenType} (is : token.type = type)
    (inner : type ≠ .endOfInput) : token.isEnd = false := by
  simp only [Token.isEnd, is, inner, decide_false]

theorem isKeyword_iff {keyword : Str} {token : Token} :
    isKeyword keyword token ↔ token.type = .keyword ∧ token.value = keyword := by
  simp only [isKeyword, Bool.and_eq_true, decide_eq_true_eq]

theorem isPunctuation_iff {c : Char} {token : Token} :
    isPunctuation c token ↔ token.type = .punctuation ∧ token.value = [c] := by
  simp only [isPunctuation, Bool.and_eq_true, decide_eq_true_eq]

theorem isEnd_of_keyword {keyword : Str} (token : Token) (is : isKeyword keyword token) :
    token.isEnd = false :=
  isEnd_of_type (isKeyword_iff.mp is).1 (by decide)

theorem isEnd_of_punctuation {c : Char} (token : Token) (is : isPunctuation c token) :
    token.isEnd = false :=
  isEnd_of_type (isPunctuation_iff.mp is).1 (by decide)

theorem fail_reads (message : Str) :
    Reads Token.isEnd (fail message : ParseM α) (fun _ _ => False) follow where
  sound ts ends := by
    obtain ⟨t, rest, rfl, -⟩ := ends.exists_cons
    exact .inl ⟨_, rfl⟩
  complete _ _ _ _ derived := derived.elim

theorem demand_reads {test : Token → Bool} (message : Str)
    (inner : ∀ t, test t → t.isEnd = false) :
    Reads Token.isEnd (demand test message) (fun t u => u = [t] ∧ test t) follow := by
  have reads : Reads Token.isEnd (demand test message)
      (fun a u => ∃ t, u = [t] ∧ test t ∧ id t = a) follow := by
    refine Reads.token (fun t rest passes => ?_) (fun t rest refused => ?_) inner
    · rw [demand, peek_bind, if_pos passes]
      exact advance_of_inner (inner t passes) rest
    · rw [demand, peek_bind, if_neg (by simp only [refused, Bool.false_eq_true,
        not_false_eq_true])]
      exact ⟨_, rfl⟩
  refine reads.congr fun a u => ?_
  constructor
  · rintro ⟨t, rfl, passes, rfl⟩
    exact ⟨rfl, passes⟩
  · rintro ⟨rfl, passes⟩
    exact ⟨a, rfl, passes, rfl⟩

theorem expect_reads {type : TokenType} (what : Str) (inner : type ≠ .endOfInput) :
    Reads Token.isEnd (expect type what) (fun t u => u = [t] ∧ decide (t.type = type)) follow :=
  demand_reads _ fun _ is => isEnd_of_type (of_decide_eq_true is) inner

theorem expectKeyword_reads (keyword : Str) :
    Reads Token.isEnd (expectKeyword keyword) (fun t u => u = [t] ∧ isKeyword keyword t) follow :=
  demand_reads _ isEnd_of_keyword

theorem expectPunctuation_reads (c : Char) :
    Reads Token.isEnd (expectPunctuation c) (fun t u => u = [t] ∧ isPunctuation c t) follow :=
  demand_reads _ isEnd_of_punctuation

theorem expectEnd_reads :
    Reads Token.isEnd expectEnd (fun _ u => u = []) fun t => t.isEnd where
  sound ts ends := by
    obtain ⟨t, rest, rfl, -⟩ := ends.exists_cons
    rw [Answers, expectEnd, peek_bind]
    by_cases last : t.isEnd
    · rw [if_pos last]
      exact .inr ⟨(), [], t :: rest, rfl, ends, rfl, rfl⟩
    · rw [if_neg last]
      exact .inl ⟨_, rfl⟩
  complete := by
    rintro _ _ next rest rfl last
    rw [List.nil_append, expectEnd, peek_bind, if_pos last]
    rfl

theorem expectName_reads (what : Str) :
    Reads Token.isEnd (expectName what) identifier follow := by
  refine (expect_reads what (by decide)).map.congr fun name u => ?_
  constructor
  · rintro ⟨t, rfl, rfl, is⟩
    exact ⟨t, rfl, List.mem_singleton.mpr (of_decide_eq_true is), rfl⟩
  · rintro ⟨t, rfl, is, rfl⟩
    exact ⟨t, rfl, rfl, decide_eq_true (List.mem_singleton.mp is)⟩

theorem parseLiteral_reads : Reads Token.isEnd parseLiteral literal follow := by
  refine (demand_reads literalExpected ?_).map.congr fun value u => ?_
  · intro t is
    obtain is | is := Bool.or_eq_true_iff.mp is
    · exact isEnd_of_type (of_decide_eq_true is) (by decide)
    · exact isEnd_of_type (of_decide_eq_true is) (by decide)
  · constructor
    · rintro ⟨t, rfl, rfl, is⟩
      exact ⟨t, rfl, by simpa using is, rfl⟩
    · rintro ⟨t, rfl, is, rfl⟩
      exact ⟨t, rfl, rfl, by simpa using is⟩

/-- Reading one token and deciding on it whether it counts, and as what. -/
theorem judged_reads (verdict : Token → α → Prop) {type : TokenType} {what : Str}
    {judge : Token → ParseM α} {grammar : α → List Token → Prop} (inner : type ≠ .endOfInput)
    (judges : ∀ t, Reads Token.isEnd (judge t) (fun a u => verdict t a ∧ u = []) follow)
    (spells : ∀ a u, grammar a u ↔ ∃ t, u = [t] ∧ t.type = type ∧ verdict t a) :
    Reads Token.isEnd (expect type what >>= judge) grammar follow := by
  refine ((expect_reads what inner).bind judges fun _ => Starts.trivial).congr fun a u => ?_
  rw [spells]
  constructor
  · rintro ⟨t, _, _, rfl, ⟨rfl, is⟩, accepted, rfl⟩
    exact ⟨t, rfl, of_decide_eq_true is, accepted⟩
  · rintro ⟨t, rfl, is, accepted⟩
    exact ⟨t, [t], [], rfl, ⟨rfl, decide_eq_true is⟩, accepted, rfl⟩

theorem dataTypeFromString_eq_some {name : Str} {type : DataType} :
    dataTypeFromString name = some type ↔ name = type.toString := by
  unfold dataTypeFromString
  cases type <;> simp only [DataType.toString] <;> split_ifs <;> simp_all

theorem typeName_iff (type : DataType) (u : List Token) :
    typeName type u ↔
      ∃ t, u = [t] ∧ t.type = .keyword ∧ dataTypeFromString t.value = some type := by
  simp only [dataTypeFromString_eq_some]
  cases type <;> simp only [typeName, word, isKeyword_iff, DataType.toString]

theorem parseColumnType_reads : Reads Token.isEnd parseColumnType typeName follow := by
  refine judged_reads (fun t type => dataTypeFromString t.value = some type)
    (by decide) (fun t => ?_) typeName_iff
  cases known : dataTypeFromString t.value with
  | none => exact (fail_reads _).congr fun type u => by simp
  | some type => exact (Reads.pure type).congr fun type u => by simp [eq_comm]

theorem expectEqual_reads :
    Reads Token.isEnd expectEqual (fun _ => operator "=".toList) follow := by
  refine judged_reads (fun t _ => t.value = ['=']) (by decide) (fun t => ?_)
    (fun _ u => ?_)
  · by_cases equal : t.value = ['=']
    · simp only [ne_eq, equal, not_true_eq_false, if_false]
      exact (Reads.pure ()).congr fun _ u => by simp
    · simp only [ne_eq, equal, not_false_eq_true, if_true]
      exact (fail_reads _).congr fun _ u => by simp
  · simp only [operator, spelled, List.mem_singleton]
    rfl

theorem symbol_injective : Function.Injective symbol := by
  intro a b same
  revert same
  cases a <;> cases b <;> decide

theorem compareOpFromToken_reads (token : Token) :
    Reads Token.isEnd (compareOpFromToken token) (fun op u => token.value = symbol op ∧ u = [])
      follow := by
  have found : ∀ op, token.value = symbol op → Reads Token.isEnd (pure op : ParseM CompareOp)
      (fun op u => token.value = symbol op ∧ u = []) follow := by
    intro op is
    refine (Reads.pure op).congr fun op' u => ?_
    rw [is, symbol_injective.eq_iff, eq_comm]
  unfold compareOpFromToken
  split_ifs with eq ne lt le gt ge
  · exact found .eq eq
  · exact found .ne ne
  · exact found .lt lt
  · exact found .le le
  · exact found .gt gt
  · exact found .ge ge
  · refine (Reads.raise _).congr fun op u => ?_
    constructor
    · exact False.elim
    · rintro ⟨is, -⟩
      cases op <;> contradiction

theorem parseCompareOp_reads :
    Reads Token.isEnd parseCompareOp (fun op => operator (symbol op)) follow := by
  refine judged_reads (fun t op => t.value = symbol op) (by decide) compareOpFromToken_reads
    (fun op u => ?_)
  simp only [operator, spelled, List.mem_singleton]

theorem commaSeparated_reads {item : ParseM α} {grammar : α → List Token → Prop}
    (reads : Reads Token.isEnd item grammar fun _ => True) :
    Reads Token.isEnd (commaSeparated item) (commaList grammar)
      fun t => isPunctuation ',' t = false :=
  reads.separated isEnd_of_punctuation

theorem parseColumnDef_reads : Reads Token.isEnd parseColumnDef columnDef follow := by
  refine Reads.unconditional ?_
  refine (expectName_reads _).field (fun name => ?_) fun _ => Starts.trivial
  refine parseColumnType_reads.field (fun type => ?_) fun _ => Starts.trivial
  refine Reads.done fun column => ?_
  cases column
  simp only [true_and, ColumnDef.mk.injEq]

theorem parseAssignment_reads : Reads Token.isEnd parseAssignment assignment follow := by
  refine Reads.unconditional ?_
  refine (expectName_reads _).field (fun column => ?_) fun _ => Starts.trivial
  refine expectEqual_reads.skip (fun v => exists_const Unit |>.symm) (fun _ => ?_) Starts.trivial
  refine parseLiteral_reads.field (fun value => ?_) fun _ => Starts.trivial
  refine Reads.done fun pair => ?_
  simp only [true_and, Prod.ext_iff]

theorem parseCondition_reads : Reads Token.isEnd parseCondition condition follow := by
  refine Reads.unconditional ?_
  refine (expectName_reads _).field (fun column => ?_) fun _ => Starts.trivial
  refine parseCompareOp_reads.field (fun op => ?_) fun _ => Starts.trivial
  refine parseLiteral_reads.field (fun value => ?_) fun _ => Starts.trivial
  refine Reads.done fun clause => ?_
  cases clause
  simp only [true_and, WhereClause.mk.injEq, and_assoc]

theorem not_keyword_of_isEnd {token : Token} (last : token.isEnd) (keyword : Str) :
    isKeyword keyword token = false := by
  simp_all [isKeyword, Token.isEnd]

theorem parseOptionalWhere_reads :
    Reads Token.isEnd parseOptionalWhere optionalWhere fun t => t.isEnd := by
  have conditions : Reads Token.isEnd parseConditions _ _ :=
    parseCondition_reads.separated isEnd_of_keyword
  refine (Reads.option (fun _ => conditions.weaken fun t last => not_keyword_of_isEnd last _)
    (Reads.pure []) isEnd_of_keyword ?_).congr fun clauses u => ?_
  · rintro _ _ next ⟨rfl, rfl⟩ last t isFirst
    obtain rfl := Option.some.inj isFirst
    exact not_keyword_of_isEnd last _
  · cases clauses with
    | nil =>
      constructor
      · rintro (⟨t, v, -, -, derived⟩ | ⟨-, rfl⟩)
        · exact (derived.ne_nil rfl).elim
        · rfl
      · rintro rfl
        exact .inr ⟨rfl, rfl⟩
    | cons clause clauses =>
      constructor
      · rintro (⟨t, v, rfl, is, derived⟩ | ⟨absurd, -⟩)
        · exact ⟨[t], v, rfl, ⟨t, rfl, is⟩, v, [], (List.append_nil v).symm, derived, rfl⟩
        · contradiction
      · rintro ⟨_, _, rfl, ⟨t, rfl, is⟩, v, _, rfl, derived, rfl⟩
        exact .inl ⟨t, v, by rw [List.append_nil]; rfl, is, derived⟩

theorem identifier_begins (name : Str) (v : List Token) (is : identifier name v) :
    Begins (fun t => t.type = .identifier) v := by
  obtain ⟨t, rfl, is, -⟩ := is
  exact ⟨t, [], rfl, List.mem_singleton.mp is⟩

theorem parseSelection_reads :
    Reads Token.isEnd parseSelection selection fun t => isPunctuation ',' t = false := by
  have star : ∀ t : Token, isPunctuation '*' t → t.isEnd = false := isEnd_of_punctuation
  refine (Reads.option (fun _ => Reads.pure []) (commaSeparated_reads (expectName_reads columnName))
    star ?_).congr fun columns u => ?_
  · apply Starts.of_begins
    intro columns u derived
    obtain ⟨t, rest, rfl, is⟩ := Separated.begins identifier_begins derived
    exact ⟨t, rest, rfl, by simp [isPunctuation, is]⟩
  · cases columns with
    | nil =>
      constructor
      · rintro (⟨t, v, rfl, is, -, rfl⟩ | derived)
        · exact ⟨t, rfl, is⟩
        · exact (derived.ne_nil rfl).elim
      · rintro ⟨t, rfl, is⟩
        exact .inl ⟨t, [], rfl, is, rfl, rfl⟩
    | cons column columns =>
      constructor
      · rintro (⟨t, v, -, -, absurd, -⟩ | derived)
        · contradiction
        · exact derived
      · exact .inr

theorem word_begins {keyword : String} (v : List Token) (is : word keyword v) :
    Begins (fun t => isPunctuation ',' t = false) v := by
  obtain ⟨t, rfl, is⟩ := is
  exact ⟨t, [], rfl, by simp [isPunctuation, (isKeyword_iff.mp is).1]⟩

theorem mark_begins {c : Char} (other : c ≠ ',') (v : List Token) (is : mark c v) :
    Begins (fun t => isPunctuation ',' t = false) v := by
  obtain ⟨t, rfl, is⟩ := is
  exact ⟨t, [], rfl, by simp [isPunctuation, (isPunctuation_iff.mp is).2, other]⟩

theorem optionalWhere_starts {holds : α → Prop} {conditions : α → WhereList} :
    Starts (Spells (fun a => [optionalWhere (conditions a)]) holds) (fun t => t.isEnd)
      fun t => isPunctuation ',' t = false := by
  rintro a _ next ⟨⟨v, _, rfl, derived, rfl⟩, -⟩ last t isFirst
  cases given : conditions a with
  | nil =>
    rw [given] at derived
    obtain rfl : v = [] := derived
    obtain rfl := Option.some.inj isFirst
    simp_all [isPunctuation, Token.isEnd]
  | cons clause clauses =>
    rw [given] at derived
    obtain ⟨_, _, rfl, is, -⟩ := derived
    obtain ⟨u, rest, rfl, good⟩ := word_begins _ is
    obtain rfl := Option.some.inj isFirst
    exact good

theorem parseDrop_reads :
    Reads Token.isEnd parseDrop (fun stmt => statement (.drop stmt)) fun t => t.isEnd := by
  refine Reads.unconditional ?_
  refine (expectKeyword_reads _).skip (fun _ => Iff.rfl) (fun _ => ?_) Starts.trivial
  refine (expectKeyword_reads _).skip (fun _ => Iff.rfl) (fun _ => ?_) Starts.trivial
  refine (expectName_reads _).field (fun table => ?_) fun _ => Starts.trivial
  refine expectEnd_reads.check (fun _ => ?_) (Starts.nil fun _ => id) ()
  refine Reads.done fun stmt => ?_
  cases stmt
  simp only [true_and, DropTableStatement.mk.injEq]

theorem parseCreate_reads :
    Reads Token.isEnd parseCreate (fun stmt => statement (.create stmt)) fun t => t.isEnd := by
  refine Reads.unconditional ?_
  refine (expectKeyword_reads _).skip (fun _ => Iff.rfl) (fun _ => ?_) Starts.trivial
  refine (expectKeyword_reads _).skip (fun _ => Iff.rfl) (fun _ => ?_) Starts.trivial
  refine (expectName_reads _).field (fun table => ?_) fun _ => Starts.trivial
  refine (expectPunctuation_reads _).skip (fun _ => Iff.rfl) (fun _ => ?_) Starts.trivial
  refine (commaSeparated_reads parseColumnDef_reads).field (fun columns => ?_)
    fun _ => Starts.part fun _ => mark_begins (by decide)
  refine (expectPunctuation_reads _).skip (fun _ => Iff.rfl) (fun _ => ?_) Starts.trivial
  refine expectEnd_reads.check (fun _ => ?_) (Starts.nil fun _ => id) ()
  refine Reads.done fun stmt => ?_
  cases stmt
  simp only [true_and, CreateTableStatement.mk.injEq]

/-- An `INSERT` up to the comparison of its counts. -/
def insertParts : ParseM (Str × List Str × List Str) := do
  let _ ← expectKeyword "INSERT".toList
  let _ ← expectKeyword "INTO".toList
  let table ← expectName tableName
  let _ ← expectPunctuation '('
  let columns ← parseIdentifierList
  let _ ← expectPunctuation ')'
  let _ ← expectKeyword "VALUES".toList
  let _ ← expectPunctuation '('
  let values ← commaSeparated parseLiteral
  let _ ← expectPunctuation ')'
  let _ ← expectEnd
  return (table, columns, values)

/-- The counts are compared only behind the end of the statement. -/
def compareCounts (parts : Str × List Str × List Str) : ParseM InsertStatement :=
  if parallel : parts.2.1.length = parts.2.2.length then
    return { table := parts.1, columns := parts.2.1, values := parts.2.2, parallel }
  else raise (.countMismatch parts.2.1.length parts.2.2.length)

theorem parseInsert_eq : parseInsert = insertParts >>= compareCounts := by
  simp only [insertParts, bind_then, pure_then]
  rfl

theorem insertParts_reads :
    Reads Token.isEnd insertParts (fun parts => sequence [word "INSERT", word "INTO",
      identifier parts.1, mark '(', commaList identifier parts.2.1, mark ')', word "VALUES",
      mark '(', commaList literal parts.2.2, mark ')']) fun t => t.isEnd := by
  refine Reads.unconditional ?_
  refine (expectKeyword_reads _).skip (fun _ => Iff.rfl) (fun _ => ?_) Starts.trivial
  refine (expectKeyword_reads _).skip (fun _ => Iff.rfl) (fun _ => ?_) Starts.trivial
  refine (expectName_reads _).field (fun table => ?_) fun _ => Starts.trivial
  refine (expectPunctuation_reads _).skip (fun _ => Iff.rfl) (fun _ => ?_) Starts.trivial
  refine (commaSeparated_reads (expectName_reads _)).field (fun columns => ?_)
    fun _ => Starts.part fun _ => mark_begins (by decide)
  refine (expectPunctuation_reads _).skip (fun _ => Iff.rfl) (fun _ => ?_) Starts.trivial
  refine (expectKeyword_reads _).skip (fun _ => Iff.rfl) (fun _ => ?_) Starts.trivial
  refine (expectPunctuation_reads _).skip (fun _ => Iff.rfl) (fun _ => ?_) Starts.trivial
  refine (commaSeparated_reads parseLiteral_reads).field (fun values => ?_)
    fun _ => Starts.part fun _ => mark_begins (by decide)
  refine (expectPunctuation_reads _).skip (fun _ => Iff.rfl) (fun _ => ?_) Starts.trivial
  refine expectEnd_reads.check (fun _ => ?_) (Starts.nil fun _ => id) ()
  refine Reads.done fun parts => ?_
  simp only [true_and, Prod.ext_iff, and_assoc]

theorem compareCounts_reads (parts : Str × List Str × List Str) :
    Reads Token.isEnd (compareCounts parts)
      (fun stmt u => (stmt.table, stmt.columns, stmt.values) = parts ∧ u = []) follow := by
  obtain ⟨table, columns, values⟩ := parts
  by_cases parallel : columns.length = values.length
  · rw [compareCounts, dif_pos parallel]
    refine (Reads.pure _).congr fun stmt u => and_congr_left fun _ => ?_
    cases stmt
    simp only [InsertStatement.mk.injEq, Prod.mk.injEq]
  · rw [compareCounts, dif_neg parallel]
    refine (Reads.raise _).congr fun stmt u => ?_
    constructor
    · exact False.elim
    · rintro ⟨same, -⟩
      cases same
      exact parallel stmt.parallel

theorem parseInsert_reads :
    Reads Token.isEnd parseInsert (fun stmt => statement (.insert stmt)) fun t => t.isEnd := by
  rw [parseInsert_eq]
  refine (insertParts_reads.bind compareCounts_reads ?_).congr fun stmt u => ?_
  · rintro parts stmt _ next ⟨-, rfl⟩ last t isFirst
    obtain rfl := Option.some.inj isFirst
    exact last
  · constructor
    · rintro ⟨_, v, _, rfl, derived, rfl, rfl⟩
      rw [List.append_nil]
      exact ⟨derived, stmt.parallel⟩
    · rintro ⟨derived, -⟩
      exact ⟨_, u, [], (List.append_nil u).symm, derived, rfl, rfl⟩

theorem parseSelect_reads :
    Reads Token.isEnd parseSelect (fun stmt => statement (.select stmt)) fun t => t.isEnd := by
  refine Reads.unconditional ?_
  refine (expectKeyword_reads _).skip (fun _ => Iff.rfl) (fun _ => ?_) Starts.trivial
  refine parseSelection_reads.field (fun columns => ?_)
    fun _ => Starts.part fun _ => word_begins
  refine (expectKeyword_reads _).skip (fun _ => Iff.rfl) (fun _ => ?_) Starts.trivial
  refine (expectName_reads _).field (fun table => ?_) fun _ => Starts.trivial
  refine parseOptionalWhere_reads.field (fun conditions => ?_) fun _ => Starts.nil fun _ => id
  refine expectEnd_reads.check (fun _ => ?_) (Starts.nil fun _ => id) ()
  refine Reads.done fun stmt => ?_
  cases stmt
  simp only [true_and, SelectStatement.mk.injEq]
  tauto

theorem parseUpdate_reads :
    Reads Token.isEnd parseUpdate (fun stmt => statement (.update stmt)) fun t => t.isEnd := by
  refine Reads.unconditional ?_
  refine (expectKeyword_reads _).skip (fun _ => Iff.rfl) (fun _ => ?_) Starts.trivial
  refine (expectName_reads _).field (fun table => ?_) fun _ => Starts.trivial
  refine (expectKeyword_reads _).skip (fun _ => Iff.rfl) (fun _ => ?_) Starts.trivial
  refine (commaSeparated_reads parseAssignment_reads).field (fun assignments => ?_)
    fun _ => optionalWhere_starts
  refine parseOptionalWhere_reads.field (fun conditions => ?_) fun _ => Starts.nil fun _ => id
  refine expectEnd_reads.check (fun _ => ?_) (Starts.nil fun _ => id) ()
  refine Reads.done fun stmt => ?_
  cases stmt
  simp only [true_and, UpdateStatement.mk.injEq, and_assoc]

theorem parseDelete_reads :
    Reads Token.isEnd parseDelete (fun stmt => statement (.delete stmt)) fun t => t.isEnd := by
  refine Reads.unconditional ?_
  refine (expectKeyword_reads _).skip (fun _ => Iff.rfl) (fun _ => ?_) Starts.trivial
  refine (expectKeyword_reads _).skip (fun _ => Iff.rfl) (fun _ => ?_) Starts.trivial
  refine (expectName_reads _).field (fun table => ?_) fun _ => Starts.trivial
  refine parseOptionalWhere_reads.field (fun conditions => ?_) fun _ => Starts.nil fun _ => id
  refine expectEnd_reads.check (fun _ => ?_) (Starts.nil fun _ => id) ()
  refine Reads.done fun stmt => ?_
  cases stmt
  simp only [true_and, DeleteStatement.mk.injEq]

/-- The keyword that announces a statement. -/
def leading : Statement → String
  | .create _ => "CREATE"
  | .drop _ => "DROP"
  | .insert _ => "INSERT"
  | .select _ => "SELECT"
  | .update _ => "UPDATE"
  | .delete _ => "DELETE"

theorem statement_head {stmt : Statement} {u : List Token} (derived : statement stmt u) :
    ∃ t, u.head? = some t ∧ t.type = .keyword ∧ t.value = (leading stmt).toList := by
  have head : ∀ {keyword : String} {parts : List (List Token → Prop)},
      sequence (word keyword :: parts) u →
        ∃ t, u.head? = some t ∧ t.type = .keyword ∧ t.value = keyword.toList := by
    rintro keyword parts ⟨_, w, rfl, ⟨t, rfl, is⟩, -⟩
    exact ⟨t, rfl, isKeyword_iff.mp is⟩
  cases stmt with
  | insert stmt => exact head derived.1
  | _ => exact head derived

theorem parseStatement_reads :
    Reads Token.isEnd parseStatement statement fun t => t.isEnd := by
  refine (Reads.peeked (fun t => (fail_reads _).ite <| parseCreate_reads.map.ite <|
    parseDrop_reads.map.ite <| parseInsert_reads.map.ite <| parseSelect_reads.map.ite <|
    parseUpdate_reads.map.ite <| parseDelete_reads.map.ite <| fail_reads _) ?_).congr
    fun stmt u => ?_
  · intro t stmt derived
    split_ifs at derived
    all_goals
      obtain ⟨_, -, derived⟩ := derived
      obtain ⟨_, head, -⟩ := statement_head derived
      cases head
  · constructor
    · rintro ⟨t, -, derived⟩
      split_ifs at derived
      all_goals
        obtain ⟨stmt, rfl, derived⟩ := derived
        exact derived
    · intro derived
      obtain ⟨t, head, keyword, value⟩ := statement_head derived
      refine ⟨t, head, ?_⟩
      rw [if_neg (not_not.mpr keyword), value]
      -- the leading keywords differ, so the tests before the right one fail by evaluation
      cases stmt
      all_goals
        rw [leading]
        exact ⟨_, rfl, derived⟩

/-- The parser stops in front of the end token. -/
def AtEnd {α : Type} : ParseM α → Prop := Leaves (Begins fun t => t.isEnd)

theorem fail_atEnd (message : Str) : AtEnd (fail message : ParseM α) := by
  rintro (- | ⟨t, ts⟩) a rest returns
  · cases returns
  · cases returns

theorem expectEnd_atEnd : AtEnd expectEnd := by
  rintro (- | ⟨t, ts⟩) a rest returns
  · cases returns
  · rw [expectEnd, peek_bind] at returns
    split_ifs at returns with last
    · cases returns
      exact ⟨t, ts, rfl, last⟩
    · cases returns

theorem parseCreate_atEnd : AtEnd parseCreate :=
  .bind fun _ => .bind fun _ => .bind fun _ => .bind fun _ => .bind fun _ => .bind fun _ =>
    expectEnd_atEnd.andPure

theorem parseDrop_atEnd : AtEnd parseDrop :=
  .bind fun _ => .bind fun _ => .bind fun _ => expectEnd_atEnd.andPure

theorem insertParts_atEnd : AtEnd insertParts :=
  .bind fun _ => .bind fun _ => .bind fun _ => .bind fun _ => .bind fun _ => .bind fun _ =>
    .bind fun _ => .bind fun _ => .bind fun _ => .bind fun _ => expectEnd_atEnd.andPure

theorem parseInsert_atEnd : AtEnd parseInsert := by
  rw [parseInsert_eq]
  refine insertParts_atEnd.still fun parts ts stmt rest returns => ?_
  rw [compareCounts] at returns
  split_ifs at returns
  · cases returns
    rfl
  · cases returns

theorem parseSelect_atEnd : AtEnd parseSelect :=
  .bind fun _ => .bind fun _ => .bind fun _ => .bind fun _ => .bind fun _ => expectEnd_atEnd.andPure

theorem parseUpdate_atEnd : AtEnd parseUpdate :=
  .bind fun _ => .bind fun _ => .bind fun _ => .bind fun _ => .bind fun _ => expectEnd_atEnd.andPure

theorem parseDelete_atEnd : AtEnd parseDelete :=
  .bind fun _ => .bind fun _ => .bind fun _ => .bind fun _ => expectEnd_atEnd.andPure

theorem parseStatement_atEnd : AtEnd parseStatement :=
  .bind fun _ => (fail_atEnd _).ite <| parseCreate_atEnd.andPure.ite <|
    parseDrop_atEnd.andPure.ite <| parseInsert_atEnd.andPure.ite <|
    parseSelect_atEnd.andPure.ite <| parseUpdate_atEnd.andPure.ite <|
    parseDelete_atEnd.andPure.ite <| fail_atEnd _

/-- The names of the columns a statement creates are identifiers of the query. -/
theorem exists_token_of_create {stmt : CreateTableStatement} {body : List Token}
    (derived : statement (.create stmt) body) {column : ColumnDef} (listed : column ∈ stmt.columns) :
    ∃ t ∈ body, t.type = .identifier ∧ t.value = column.name := by
  have listed' : commaList columnDef stmt.columns ∈ [word "CREATE", word "TABLE",
      identifier stmt.table, mark '(', commaList columnDef stmt.columns, mark ')'] := by simp
  obtain ⟨u, columns, inside⟩ := exists_part derived listed'
  obtain ⟨v, spelled, inside'⟩ := columns.exists_item listed
  obtain ⟨w, ⟨t, rfl, type, value⟩, inside''⟩ := exists_part spelled (List.mem_cons_self ..)
  exact ⟨t, inside (inside' (inside'' (List.mem_singleton.mpr rfl))),
    List.mem_singleton.mp type, value⟩

/-- The parser returns, and it returns exactly the statements the tokens spell. -/
theorem parse_spec {body : List Token} {last : Token} (inner : ∀ t ∈ body, t.isEnd = false)
    (isLast : last.isEnd) :
    (∃ answer, parse (body ++ [last]) = some answer) ∧
      ∀ stmt, parse (body ++ [last]) = some (.ok stmt) ↔ statement stmt body := by
  have complete : ∀ stmt, statement stmt body → parse (body ++ [last]) = some (.ok stmt) := by
    intro stmt derived
    rw [parse, parseStatement_reads.complete stmt body last [] derived isLast]
    rfl
  obtain ⟨error, throws⟩ | ⟨stmt, used, rest, reads, ends, split, derived⟩ :=
    parseStatement_reads.sound (body ++ [last]) ⟨body, last, rfl, isLast, inner⟩
  · have fails : parse (body ++ [last]) = some (.error error) := by
      rw [parse, throws]
      rfl
    refine ⟨⟨_, fails⟩, fun stmt => ⟨fun returns => ?_, complete stmt⟩⟩
    cases fails.symm.trans returns
  · have returns : parse (body ++ [last]) = some (.ok stmt) := by
      rw [parse, reads]
      rfl
    -- what is left begins with the end token, so it is the end token
    obtain ⟨t, tail, rfl, isEnd⟩ := parseStatement_atEnd _ _ _ reads
    obtain rfl := ends.of_end isEnd
    obtain ⟨rfl, -⟩ := List.append_inj' split rfl
    refine ⟨⟨_, returns⟩, fun stmt' => ⟨fun returns' => ?_, complete stmt'⟩⟩
    obtain rfl := Except.ok.inj (Option.some.inj (returns.symm.trans returns'))
    exact derived

/-- On every token list that ends in its only end token, the parser returns, with the
statement the tokens before it spell, and it throws when they spell none. -/
theorem parse_accepts_grammar (body : List Token) (last : Token)
    (inner : ∀ token ∈ body, token.type ≠ .endOfInput) (ends : last.type = .endOfInput) :
    (∃ answer, parse (body ++ [last]) = some answer) ∧
      (∀ stmt, parse (body ++ [last]) = some (.ok stmt) ↔ statement stmt body) ∧
      ((∀ stmt, ¬ statement stmt body) → ∃ error, parse (body ++ [last]) = some (.error error)) := by
  obtain ⟨⟨answer, returns⟩, exactly⟩ := parse_spec
    (fun t member => decide_eq_false (inner t member)) (decide_eq_true ends : last.isEnd)
  refine ⟨⟨answer, returns⟩, exactly, fun spellsNone => ?_⟩
  cases answer with
  | error error => exact ⟨error, returns⟩
  | ok stmt => exact (spellsNone stmt ((exactly stmt).mp returns)).elim

/-- `INSERT INTO t (id, n) VALUES (1, 'a')`, with its two lists. -/
def insertTokens : List Token :=
  [⟨.keyword, "INSERT".toList, 0⟩, ⟨.keyword, "INTO".toList, 7⟩, ⟨.identifier, "t".toList, 12⟩,
    ⟨.punctuation, "(".toList, 14⟩, ⟨.identifier, "id".toList, 15⟩, ⟨.punctuation, ",".toList, 17⟩,
    ⟨.identifier, "n".toList, 19⟩, ⟨.punctuation, ")".toList, 20⟩, ⟨.keyword, "VALUES".toList, 22⟩,
    ⟨.punctuation, "(".toList, 29⟩, ⟨.number, "1".toList, 30⟩, ⟨.punctuation, ",".toList, 31⟩,
    ⟨.string, "a".toList, 33⟩, ⟨.punctuation, ")".toList, 36⟩]

theorem parse_accepts_grammar_insert :
    statement (.insert ⟨"t".toList, ["id".toList, "n".toList], ["1".toList, "a".toList], rfl⟩)
        insertTokens ∧
      ∃ error, parse (insertTokens.dropLast ++ [⟨.endOfInput, [], 36⟩]) = some (.error error) := by
  constructor
  · obtain ⟨-, exactly, -⟩ := parse_accepts_grammar insertTokens ⟨.endOfInput, [], 37⟩ (by decide) rfl
    exact (exactly _).mp (by decide +kernel)
  · obtain ⟨-, exactly, fails⟩ :=
      parse_accepts_grammar insertTokens.dropLast ⟨.endOfInput, [], 36⟩ (by decide) rfl
    refine fails fun stmt derived => ?_
    have accepted := (exactly stmt).mpr derived
    have refused : (parse (insertTokens.dropLast ++ [⟨.endOfInput, [], 36⟩])).any
        (·.toOption.isSome) = false := by
      decide +kernel
    rw [accepted] at refused
    cases refused

end CppDB.Parser
