import CppDB.Query.Executor.Replies
import CppDB.Query.Lexer.Lexemes

/-! Statements written out as queries. Every statement that some query stands for stands
for a query that can be computed from it, and these statements can be told apart by
looking at their names and lists alone. -/
namespace CppDB.Printing

open Descent Lexer

/-! ### The text of a statement -/

def keyword (word : String) : TokenType × Str := (.keyword, word.toList)

def name (text : Str) : TokenType × Str := (.identifier, text)

def mark (c : Char) : TokenType × Str := (.punctuation, [c])

def operator (symbol : Str) : TokenType × Str := (.operator, symbol)

/-- The parser takes numbers and strings alike, so a literal can always be quoted. -/
def literal (value : Str) : TokenType × Str := (.string, value)

def separated {α : Type} (between : TokenType × Str) (item : α → List (TokenType × Str))
    (items : List α) : List (TokenType × Str) :=
  [between].intercalate (items.map item)

def commaList {α : Type} (item : α → List (TokenType × Str)) : List α → List (TokenType × Str) :=
  separated (mark ',') item

def identifier (text : Str) : List (TokenType × Str) := [name text]

def columnDef (column : ColumnDef) : List (TokenType × Str) :=
  [name column.name, (.keyword, column.type.toString)]

def assignment (pair : Str × Str) : List (TokenType × Str) :=
  [name pair.1, operator "=".toList, literal pair.2]

def condition (clause : WhereClause) : List (TokenType × Str) :=
  [name clause.column, operator (Grammar.symbol clause.op), literal clause.value]

def optionalWhere (conditions : WhereList) : List (TokenType × Str) :=
  if conditions.isEmpty then []
  else keyword "WHERE" :: separated (keyword "AND") condition conditions

def selection (columns : List Str) : List (TokenType × Str) :=
  if columns.isEmpty then [mark '*'] else commaList identifier columns

/-- The tokens of the statement, in the order of the grammar. -/
def spell : Statement → List (TokenType × Str)
  | .create stmt =>
    [[keyword "CREATE"], [keyword "TABLE"], [name stmt.table], [mark '('],
      commaList columnDef stmt.columns, [mark ')']].flatten
  | .drop stmt => [[keyword "DROP"], [keyword "TABLE"], [name stmt.table]].flatten
  | .insert stmt =>
    [[keyword "INSERT"], [keyword "INTO"], [name stmt.table], [mark '('],
      commaList identifier stmt.columns, [mark ')'], [keyword "VALUES"], [mark '('],
      commaList (fun value => [literal value]) stmt.values, [mark ')']].flatten
  | .select stmt =>
    [[keyword "SELECT"], selection stmt.columns, [keyword "FROM"], [name stmt.table],
      optionalWhere stmt.conditions].flatten
  | .update stmt =>
    [[keyword "UPDATE"], [name stmt.table], [keyword "SET"],
      commaList assignment stmt.assignments, optionalWhere stmt.conditions].flatten
  | .delete stmt =>
    [[keyword "DELETE"], [keyword "FROM"], [name stmt.table],
      optionalWhere stmt.conditions].flatten

/-- The text of one token. -/
def write (made : TokenType × Str) : Str :=
  if made.1 = .string then '\'' :: (escape '\'' made.2 ++ ['\'']) else made.2

/-- The statement as a query, with a blank in front of every token. -/
def unparse (stmt : Statement) : Str := (spell stmt).flatMap fun made => ' ' :: write made

/-! ### The statements that can be written -/

/-- A word that the lexer leaves as it is. -/
def isName : Str → Bool
  | [] => false
  | c :: word =>
    isIdentStart c && word.all isIdentChar && !isKeyword ((c :: word).map Char.toUpper)

def names : Statement → List Str
  | .create stmt => stmt.table :: stmt.columns.map ColumnDef.name
  | .drop stmt => [stmt.table]
  | .insert stmt => stmt.table :: stmt.columns
  | .select stmt => stmt.table :: (stmt.columns ++ stmt.conditions.map WhereClause.column)
  | .update stmt =>
    stmt.table :: (stmt.assignments.map Prod.fst ++ stmt.conditions.map WhereClause.column)
  | .delete stmt => stmt.table :: stmt.conditions.map WhereClause.column

def literals : Statement → List Str
  | .create _ => []
  | .drop _ => []
  | .insert stmt => stmt.values
  | .select stmt => stmt.conditions.map WhereClause.value
  | .update stmt => stmt.assignments.map Prod.snd ++ stmt.conditions.map WhereClause.value
  | .delete stmt => stmt.conditions.map WhereClause.value

/-- The lists that the grammar has no empty form for. -/
def filled : Statement → Bool
  | .create stmt => !stmt.columns.isEmpty
  | .drop _ => true
  | .insert stmt => !stmt.columns.isEmpty
  | .select _ => true
  | .update stmt => !stmt.assignments.isEmpty
  | .delete _ => true

def expressible (stmt : Statement) : Bool := filled stmt && (names stmt).all isName

theorem expressible_iff {stmt : Statement} :
    expressible stmt ↔ filled stmt ∧ ∀ text ∈ names stmt, isName text := by
  rw [expressible, Bool.and_eq_true, List.all_eq_true]

theorem isName_of_lexeme {value text : Str} (lexeme : Lexeme .identifier value text) :
    isName value := by
  cases lexeme with
  | identifier starts goes other =>
    rw [isName, starts, other, List.all_eq_true.mpr goes]
    rfl

theorem lexeme_of_isName {text : Str} (is : isName text) : Lexeme .identifier text text := by
  cases text with
  | nil => cases is
  | cons c word =>
    simp only [isName, Bool.and_eq_true, List.all_eq_true, Bool.not_eq_true'] at is
    obtain ⟨⟨starts, goes⟩, other⟩ := is
    exact .identifier starts goes other

/-! ### The tokens of the text -/

section Separated

variable {α : Type} {between : TokenType × Str} {item : α → List (TokenType × Str)}

theorem separated_singleton (a : α) : separated between item [a] = item a := by
  simp [separated]

theorem separated_cons {others : List α} (some : others ≠ []) (a : α) :
    separated between item (a :: others) = item a ++ between :: separated between item others := by
  obtain ⟨b, others, rfl⟩ := List.exists_cons_of_ne_nil some
  simp [separated]

/-- What holds of the separator and of the tokens of every item holds of all tokens. -/
theorem forall_separated {holds : TokenType × Str → Prop} (here : holds between) {items : List α}
    (each : ∀ a ∈ items, ∀ made ∈ item a, holds made) :
    ∀ made ∈ separated between item items, holds made := by
  induction items with
  | nil => simp [separated]
  | cons a others ih =>
    have rest := ih fun b listed => each b (by simp [listed])
    by_cases none : others = []
    · subst none
      rw [separated_singleton]
      exact each a (by simp)
    · rw [separated_cons none]
      simp only [List.forall_mem_append, List.forall_mem_cons]
      exact ⟨each a (by simp), here, rest⟩

end Separated

/-- The tokens that a statement of these names and literals is written with. -/
inductive Known (names literals : List Str) : TokenType × Str → Prop where
  | word {word : Str} (listed : word ∈ keywords) : Known names literals (.keyword, word)
  | mark {text : Str} (listed : text ∈ marks) : Known names literals (.punctuation, text)
  | operator {text : Str} (listed : text ∈ operators) : Known names literals (.operator, text)
  | name {text : Str} (listed : text ∈ names) : Known names literals (name text)
  | literal {value : Str} (listed : value ∈ literals) : Known names literals (literal value)

section Known

variable {ns ls : List Str}

theorem known_commaList {α : Type} {item : α → List (TokenType × Str)} {items : List α}
    (each : ∀ a ∈ items, ∀ made ∈ item a, Known ns ls made) :
    ∀ made ∈ commaList item items, Known ns ls made :=
  forall_separated (.mark (by decide)) each

theorem known_identifiers {columns : List Str} (listed : ∀ column ∈ columns, column ∈ ns) :
    ∀ made ∈ commaList identifier columns, Known ns ls made := by
  refine known_commaList fun column there made is => ?_
  rw [List.mem_singleton.mp is]
  exact .name (listed column there)

theorem known_selection {columns : List Str} (listed : ∀ column ∈ columns, column ∈ ns) :
    ∀ made ∈ selection columns, Known ns ls made := by
  unfold selection
  split
  · rintro made is
    rw [List.mem_singleton.mp is]
    exact .mark (by decide)
  · exact known_identifiers listed

theorem known_optionalWhere {conditions : WhereList}
    (named : ∀ clause ∈ conditions, clause.column ∈ ns)
    (valued : ∀ clause ∈ conditions, clause.value ∈ ls) :
    ∀ made ∈ optionalWhere conditions, Known ns ls made := by
  unfold optionalWhere
  split
  · simp
  · rw [List.forall_mem_cons]
    refine ⟨.word (by decide), forall_separated (.word (by decide)) fun clause there => ?_⟩
    have listed : Grammar.symbol clause.op ∈ operators := by
      cases clause.op <;> decide
    simp only [condition, List.forall_mem_cons]
    exact ⟨.name (named clause there), .operator listed, .literal (valued clause there), by simp⟩

end Known

/-- Only the names and the literals of a statement are its own. -/
theorem known_spell (stmt : Statement) :
    ∀ made ∈ spell stmt, Known (names stmt) (literals stmt) made := by
  -- the parts of the statement, one after the other
  cases stmt with
  | create stmt =>
    simp only [spell, List.flatten_cons, List.forall_mem_append, List.forall_mem_singleton]
    refine ⟨.word (by decide), .word (by decide), .name (by simp [names]), .mark (by decide),
      known_commaList fun column there => ?_, .mark (by decide), by simp⟩
    have typed : column.type.toString ∈ keywords := by
      cases column.type <;> decide
    simp only [columnDef, List.forall_mem_cons]
    exact ⟨.name (List.mem_cons_of_mem _ (List.mem_map_of_mem there)), .word typed, by simp⟩
  | drop stmt =>
    simp only [spell, List.flatten_cons, List.forall_mem_append, List.forall_mem_singleton]
    exact ⟨.word (by decide), .word (by decide), .name (by simp [names]), by simp⟩
  | insert stmt =>
    simp only [spell, List.flatten_cons, List.forall_mem_append, List.forall_mem_singleton]
    refine ⟨.word (by decide), .word (by decide), .name (by simp [names]), .mark (by decide),
      known_identifiers fun column there => by simp [names, there], .mark (by decide),
      .word (by decide), .mark (by decide), known_commaList fun value there => ?_,
      .mark (by decide), by simp⟩
    rw [List.forall_mem_singleton]
    exact .literal there
  | select stmt =>
    simp only [spell, List.flatten_cons, List.forall_mem_append, List.forall_mem_singleton]
    exact ⟨.word (by decide), known_selection fun column there => by simp [names, there],
      .word (by decide), .name (by simp [names]),
      known_optionalWhere (fun clause there => by simp [names, List.mem_map_of_mem there])
        fun clause there => List.mem_map_of_mem there, by simp⟩
  | update stmt =>
    simp only [spell, List.flatten_cons, List.forall_mem_append, List.forall_mem_singleton]
    refine ⟨.word (by decide), .name (by simp [names]), .word (by decide),
      known_commaList fun pair there => ?_,
      known_optionalWhere (fun clause there => by simp [names, List.mem_map_of_mem there])
        fun clause there => by simp [literals, List.mem_map_of_mem there], by simp⟩
    simp only [assignment, List.forall_mem_cons]
    have named := List.mem_map_of_mem (f := Prod.fst) there
    have valued := List.mem_map_of_mem (f := Prod.snd) there
    exact ⟨.name (List.mem_cons_of_mem _ (List.mem_append_left _ named)), .operator (by decide),
      .literal (List.mem_append_left _ valued), by simp⟩
  | delete stmt =>
    simp only [spell, List.flatten_cons, List.forall_mem_append, List.forall_mem_singleton]
    exact ⟨.word (by decide), .word (by decide), .name (by simp [names]),
      known_optionalWhere (fun clause there => by simp [names, List.mem_map_of_mem there])
        fun clause there => List.mem_map_of_mem there, by simp⟩

theorem keywords_upper : ∀ word ∈ keywords, word.map Char.toUpper = word := by
  decide

/-- The text of a token is one of its lexemes. -/
theorem Known.lexeme {ns ls : List Str} {made : TokenType × Str} (known : Known ns ls made)
    (named : ∀ text ∈ ns, isName text) : Lexeme made.1 made.2 (write made) := by
  cases known with
  | @word word listed =>
    have upper := keywords_upper word listed
    have lexeme : Lexeme .keyword (word.map Char.toUpper) word :=
      .keyword (decide_eq_true (upper.symm ▸ listed))
    rwa [upper] at lexeme
  | mark listed => exact .punctuation listed
  | operator listed => exact .operator listed
  | name listed => exact lexeme_of_isName (named _ listed)
  | @literal value listed => exact .string (.inl rfl) value

theorem rendering_of_lexemes {kinds : List (TokenType × Str)}
    (lexemes : ∀ made ∈ kinds, Lexeme made.1 made.2 (write made)) :
    Rendering kinds (kinds.flatMap fun made => ' ' :: write made) := by
  induction kinds with
  | nil => exact .blank fun c there => by cases there
  | cons made others ih =>
    rw [List.forall_mem_cons] at lexemes
    obtain ⟨lexeme, behind⟩ := lexemes
    have blank : Blank [' '] := by
      intro c there
      obtain rfl := List.mem_singleton.mp there
      rfl
    -- the next token has its own blank in front
    refine Rendering.token blank lexeme (fun some => ?_) (ih behind)
    obtain ⟨next, others, rfl⟩ := List.exists_cons_of_ne_nil some
    exact ⟨' ', rfl, rfl⟩

/-! ### What the tokens stand for -/

/-- Tokens of these kinds follow the grammar, wherever they stand. -/
def Derives (grammar : List Token → Prop) (kinds : List (TokenType × Str)) : Prop :=
  ∀ tokens : List Token, tokens.map kind = kinds → grammar tokens

namespace Derives

theorem token {type : TokenType} {value : Str} {grammar : List Token → Prop}
    (follows : ∀ position, grammar [⟨type, value, position⟩]) :
    Derives grammar [(type, value)] := by
  intro tokens same
  obtain ⟨token, rfl, is⟩ := List.map_eq_singleton_iff.mp same
  cases is
  exact follows token.position

theorem word (text : String) : Derives (Grammar.word text) [keyword text] :=
  token fun _ => ⟨_, rfl, by simp [Parser.isKeyword]⟩

theorem mark (c : Char) : Derives (Grammar.mark c) [Printing.mark c] :=
  token fun _ => ⟨_, rfl, by simp [Parser.isPunctuation]⟩

theorem identifier (text : Str) : Derives (Grammar.identifier text) [name text] :=
  token fun _ => ⟨_, rfl, by simp, rfl⟩

theorem operator (symbol : Str) : Derives (Grammar.operator symbol) [Printing.operator symbol] :=
  token fun _ => ⟨_, rfl, by simp, rfl⟩

theorem literal (value : Str) : Derives (Grammar.literal value) [Printing.literal value] :=
  token fun _ => ⟨_, rfl, by simp, rfl⟩

theorem done : Derives (sequence []) [] := by
  intro tokens same
  exact List.map_eq_nil_iff.mp same

theorem followed {part : List Token → Prop} {parts : List (List Token → Prop)}
    {kinds others : List (TokenType × Str)} (first : Derives part kinds)
    (rest : Derives (sequence parts) others) : Derives (sequence (part :: parts)) (kinds ++ others) := by
  intro tokens same
  obtain ⟨front, back, rfl, here, there⟩ := List.map_eq_append_iff.mp same
  exact ⟨front, back, rfl, first front here, rest back there⟩

/-- By induction on the items. -/
theorem separated {α : Type} {sep : Token → Bool} {grammar : α → List Token → Prop}
    {between : TokenType × Str} {item : α → List (TokenType × Str)}
    (separates : ∀ token, kind token = between → sep token) {items : List α} (some : items ≠ [])
    (each : ∀ a ∈ items, Derives (grammar a) (item a)) :
    Derives (Separated sep grammar items) (Printing.separated between item items) := by
  induction items with
  | nil => exact absurd rfl some
  | cons a others ih =>
    have here := each a (by simp)
    by_cases none : others = []
    · subst none
      rw [separated_singleton]
      exact fun tokens same => .one (here tokens same)
    · rw [separated_cons none]
      intro tokens same
      obtain ⟨front, back, rfl, first, more⟩ := List.map_eq_append_iff.mp same
      obtain ⟨token, back, rfl, is, behind⟩ := List.map_eq_cons_iff.mp more
      have rest := ih none fun b listed => each b (by simp [listed])
      exact .more (here front first) (separates token is) (rest back behind)

theorem commaList {α : Type} {grammar : α → List Token → Prop}
    {item : α → List (TokenType × Str)} {items : List α} (some : items ≠ [])
    (each : ∀ a ∈ items, Derives (grammar a) (item a)) :
    Derives (Grammar.commaList grammar items) (Printing.commaList item items) := by
  refine separated (fun token is => ?_) some each
  cases token
  cases is
  rfl

theorem columnDef (column : ColumnDef) :
    Derives (Grammar.columnDef column) (Printing.columnDef column) := by
  have typed : Derives (Grammar.typeName column.type) [(.keyword, column.type.toString)] := by
    cases column.type with
    | int => exact word "INT"
    | text => exact word "TEXT"
  exact (identifier column.name).followed (typed.followed done)

theorem assignment (pair : Str × Str) :
    Derives (Grammar.assignment pair) (Printing.assignment pair) :=
  (identifier pair.1).followed <| (operator _).followed <| (literal pair.2).followed done

theorem condition (clause : WhereClause) :
    Derives (Grammar.condition clause) (Printing.condition clause) :=
  (identifier clause.column).followed <| (operator _).followed <| (literal clause.value).followed done

theorem optionalWhere (conditions : WhereList) :
    Derives (Grammar.optionalWhere conditions) (Printing.optionalWhere conditions) := by
  cases conditions with
  | nil => exact done
  | cons clause clauses =>
    have list : Derives (Separated (Parser.isKeyword "AND".toList) Grammar.condition
        (clause :: clauses))
        (Printing.separated (keyword "AND") Printing.condition (clause :: clauses)) := by
      refine separated (fun token is => ?_) (by simp) fun clause _ => condition clause
      cases token
      cases is
      rfl
    have derives := (word "WHERE").followed (list.followed done)
    rw [List.append_nil] at derives
    exact derives

theorem selection (columns : List Str) :
    Derives (Grammar.selection columns) (Printing.selection columns) := by
  cases columns with
  | nil => exact mark '*'
  | cons column columns => exact commaList (by simp) fun column _ => identifier column

theorem statement {stmt : Statement} (full : filled stmt) :
    Derives (Grammar.statement stmt) (spell stmt) := by
  cases stmt with
  | create stmt =>
    have some : stmt.columns ≠ [] := by simpa [filled] using full
    exact (word "CREATE").followed <| (word "TABLE").followed <| (identifier _).followed <| (mark '(').followed <|
      (commaList some fun column _ => columnDef column).followed <| (mark ')').followed done
  | drop stmt => exact (word "DROP").followed <| (word "TABLE").followed <| (identifier _).followed done
  | insert stmt =>
    have some : stmt.columns ≠ [] := by simpa [filled] using full
    have some' : stmt.values ≠ [] := by
      rw [← List.length_pos_iff, ← stmt.parallel, List.length_pos_iff]
      exact some
    have derives := (word "INSERT").followed <| (word "INTO").followed <| (identifier stmt.table).followed <|
      (mark '(').followed <| (commaList some fun column _ => identifier column).followed <|
      (mark ')').followed <| (word "VALUES").followed <| (mark '(').followed <|
      (commaList some' fun value _ => literal value).followed <| (mark ')').followed done
    exact fun tokens same => ⟨derives tokens same, stmt.parallel⟩
  | select stmt =>
    exact (word "SELECT").followed <| (selection stmt.columns).followed <| (word "FROM").followed <|
      (identifier _).followed <| (optionalWhere stmt.conditions).followed done
  | update stmt =>
    have some : stmt.assignments ≠ [] := by simpa [filled] using full
    exact (word "UPDATE").followed <| (identifier _).followed <| (word "SET").followed <|
      (commaList some fun pair _ => assignment pair).followed <|
      (optionalWhere stmt.conditions).followed done
  | delete stmt =>
    exact (word "DELETE").followed <| (word "FROM").followed <| (identifier _).followed <|
      (optionalWhere stmt.conditions).followed done

end Derives

/-! ### What a statement says -/

section Derivations

variable {tokens : List Token}

/-- An identifier of the tokens. -/
def Read (tokens : List Token) (text : Str) : Prop :=
  ∃ token ∈ tokens, token.type = .identifier ∧ token.value = text

theorem Read.mono {text : Str} {more : List Token} (read : Read tokens text)
    (inside : tokens ⊆ more) : Read more text := by
  obtain ⟨token, there, is⟩ := read
  exact ⟨token, inside there, is⟩

theorem read_of_identifier {text : Str} (derived : Grammar.identifier text tokens) :
    Read tokens text := by
  obtain ⟨token, rfl, type, value⟩ := derived
  exact ⟨token, by simp, List.mem_singleton.mp type, value⟩

/-- The name that a part of the statement begins with. -/
theorem read_of_sequence {text : Str} {parts : List (List Token → Prop)}
    (derived : sequence parts tokens) (listed : Grammar.identifier text ∈ parts) :
    Read tokens text := by
  obtain ⟨u, part, inside⟩ := exists_part derived listed
  exact (read_of_identifier part).mono inside

/-- The names that the items of a list begin with. -/
theorem read_of_separated {α : Type} {sep : Token → Bool} {grammar : α → List Token → Prop}
    {items : List α} {label : α → Str} (derived : Separated sep grammar items tokens)
    (each : ∀ a u, grammar a u → Read u (label a)) : ∀ a ∈ items, Read tokens (label a) := by
  intro a listed
  obtain ⟨u, item, inside⟩ := derived.exists_item listed
  exact (each a u item).mono inside

theorem read_of_optionalWhere {conditions : WhereList}
    (derived : Grammar.optionalWhere conditions tokens) :
    ∀ clause ∈ conditions, Read tokens clause.column := by
  cases conditions with
  | nil => simp
  | cons clause clauses =>
    obtain ⟨u, list, inside⟩ :=
      exists_part derived (List.mem_cons_of_mem _ (List.mem_singleton_self _))
    intro clause listed
    refine (read_of_separated list (fun clause v derived => ?_) clause listed).mono inside
    exact read_of_sequence derived (by simp)

theorem read_of_selection {columns : List Str} (derived : Grammar.selection columns tokens) :
    ∀ column ∈ columns, Read tokens column := by
  cases columns with
  | nil => simp
  | cons column columns =>
    exact read_of_separated derived fun column u derived => read_of_identifier derived

theorem names_of_statement {stmt : Statement} (derived : Grammar.statement stmt tokens) :
    filled stmt ∧ ∀ text ∈ names stmt, Read tokens text := by
  cases stmt with
  | create stmt =>
    obtain ⟨u, list, inside⟩ :=
      exists_part derived (show Grammar.commaList Grammar.columnDef stmt.columns ∈ _ by simp)
    have columns := read_of_separated list fun column v derived =>
      (read_of_sequence derived (by simp) : Read v column.name)
    refine ⟨by simpa [filled] using list.ne_nil, ?_⟩
    simp only [names, List.forall_mem_cons, List.forall_mem_map]
    exact ⟨read_of_sequence derived (by simp), fun column listed => (columns column listed).mono inside⟩
  | drop stmt =>
    refine ⟨rfl, ?_⟩
    simp only [names, List.forall_mem_singleton]
    exact read_of_sequence derived (by simp)
  | insert stmt =>
    obtain ⟨derived, -⟩ := derived
    obtain ⟨u, list, inside⟩ :=
      exists_part derived (show Grammar.commaList Grammar.identifier stmt.columns ∈ _ by simp)
    have columns := read_of_separated list fun column v derived => read_of_identifier derived
    refine ⟨by simpa [filled] using list.ne_nil, ?_⟩
    simp only [names, List.forall_mem_cons]
    exact ⟨read_of_sequence derived (by simp), fun column listed => (columns column listed).mono inside⟩
  | select stmt =>
    obtain ⟨u, list, inside⟩ := exists_part derived (show Grammar.selection stmt.columns ∈ _ by simp)
    obtain ⟨v, clauses, within⟩ :=
      exists_part derived (show Grammar.optionalWhere stmt.conditions ∈ _ by simp)
    refine ⟨rfl, ?_⟩
    simp only [names, List.forall_mem_cons, List.forall_mem_append, List.forall_mem_map]
    exact ⟨read_of_sequence derived (by simp),
      fun column listed => (read_of_selection list column listed).mono inside,
      fun clause listed => (read_of_optionalWhere clauses clause listed).mono within⟩
  | update stmt =>
    obtain ⟨u, list, inside⟩ :=
      exists_part derived (show Grammar.commaList Grammar.assignment stmt.assignments ∈ _ by simp)
    obtain ⟨v, clauses, within⟩ :=
      exists_part derived (show Grammar.optionalWhere stmt.conditions ∈ _ by simp)
    have columns := read_of_separated list fun pair v derived =>
      (read_of_sequence derived (by simp) : Read v pair.1)
    refine ⟨by simpa [filled] using list.ne_nil, ?_⟩
    simp only [names, List.forall_mem_cons, List.forall_mem_append, List.forall_mem_map]
    exact ⟨read_of_sequence derived (by simp),
      fun pair listed => (columns pair listed).mono inside,
      fun clause listed => (read_of_optionalWhere clauses clause listed).mono within⟩
  | delete stmt =>
    obtain ⟨v, clauses, within⟩ :=
      exists_part derived (show Grammar.optionalWhere stmt.conditions ∈ _ by simp)
    refine ⟨rfl, ?_⟩
    simp only [names, List.forall_mem_cons, List.forall_mem_map]
    exact ⟨read_of_sequence derived (by simp),
      fun clause listed => (read_of_optionalWhere clauses clause listed).mono within⟩

end Derivations

/-! ### Queries and statements -/

section Queries

open Executor

variable {query : Str} {stmt : Statement}

/-- A query stands for a statement if its tokens follow the grammar. -/
theorem compile_eq_ok_iff :
    compile query = .ok stmt ↔ ∃ body, Layout 0 body query ∧ Grammar.statement stmt body := by
  have spec : ∀ {body : List Token}, Layout 0 body query → ∀ stmt,
      Parser.parse (body ++ [⟨.endOfInput, [], query.length⟩]) = some (.ok stmt) ↔
        Grammar.statement stmt body := by
    intro body layout
    refine (Parser.parse_spec (fun token there => ?_) rfl).2
    obtain ⟨text, lexeme⟩ := layout.lexeme token there
    rw [Token.isEnd, decide_eq_false_iff_not]
    intro ends
    rw [ends] at lexeme
    cases lexeme
  have answer := parseQuery_eq query
  constructor
  · intro compiles
    rw [compiles, parseQuery] at answer
    split at answer
    · cases answer
    · cases answer
    · rename_i tokens lexes
      obtain ⟨body, rfl, layout⟩ := tokenize_eq_ok_iff.mp lexes
      obtain ⟨parsed, parses, same⟩ := Option.map_eq_some_iff.mp answer
      refine ⟨body, layout, (spec layout stmt).mp ?_⟩
      cases parsed with
      | error e => cases same
      | ok stmt' =>
        cases same
        exact parses
  · rintro ⟨body, layout, derived⟩
    have lexes := tokenize_eq_ok_iff.mpr ⟨body, rfl, layout⟩
    have parses := (spec layout stmt).mpr derived
    rw [parseQuery, lexes] at answer
    simp only [parses, Option.map_some, Option.some.injEq] at answer
    exact answer.symm

theorem expressible_of_compile (compiles : compile query = .ok stmt) : expressible stmt := by
  obtain ⟨body, layout, derived⟩ := compile_eq_ok_iff.mp compiles
  obtain ⟨full, read⟩ := names_of_statement derived
  refine expressible_iff.mpr ⟨full, fun text listed => ?_⟩
  obtain ⟨token, there, type, rfl⟩ := read text listed
  obtain ⟨text, lexeme⟩ := layout.lexeme token there
  rw [type] at lexeme
  exact isName_of_lexeme lexeme

theorem compile_unparse (can : expressible stmt) : compile (unparse stmt) = .ok stmt := by
  obtain ⟨full, named⟩ := expressible_iff.mp can
  have rendering : Rendering (spell stmt) (unparse stmt) :=
    rendering_of_lexemes fun made there => (known_spell stmt made there).lexeme named
  obtain ⟨body, same, layout⟩ := rendering.layout 0
  exact compile_eq_ok_iff.mpr ⟨body, layout, Derives.statement full body same⟩

/-! ### Queries on one line -/

theorem isIdentChar_of_isName {text : Str} (is : isName text) :
    text ≠ [] ∧ ∀ d ∈ text, isIdentChar d = true := by
  cases lexeme_of_isName is with
  | identifier starts goes other =>
    exact ⟨List.cons_ne_nil _ _, List.forall_mem_cons.mpr ⟨isIdentChar_of_start starts, goes⟩⟩

theorem clean_of_isName {text : Str} (is : isName text) : Clean text := by
  intro there
  exact absurd ((isIdentChar_of_isName is).2 _ there) (by decide)

theorem clean_escape {text : Str} (clean : Clean text) : Clean (escape '\'' text) := by
  intro there
  obtain ⟨c, listed, there⟩ := List.mem_flatMap.mp there
  split at there
  · exact absurd there (by decide)
  · rw [← List.mem_singleton.mp there] at listed
    exact clean listed

theorem clean_fixed : ∀ text ∈ keywords ++ marks ++ operators, Clean text := by
  decide

theorem Known.clean {ns ls : List Str} {made : TokenType × Str} (known : Known ns ls made)
    (named : ∀ text ∈ ns, isName text) (clean : ∀ value ∈ ls, Clean value) :
    Clean (write made) := by
  cases known with
  | @word word listed => exact clean_fixed word (by simp [listed])
  | @mark text listed => exact clean_fixed text (by simp [listed])
  | @operator text listed => exact clean_fixed text (by simp [listed])
  | name listed => exact clean_of_isName (named _ listed)
  | literal listed =>
    have escaped := clean_escape (clean _ listed)
    exact Clean.cons.mpr ⟨by decide, Clean.append.mpr ⟨escaped, by decide⟩⟩

theorem literals_of_clean (clean : CleanStatement stmt) : ∀ value ∈ literals stmt, Clean value := by
  cases stmt with
  | create stmt => simp [literals]
  | drop stmt => simp [literals]
  | insert stmt => exact clean.2.2
  | select stmt =>
    simp only [literals, List.forall_mem_map]
    exact fun clause listed => (clean.2.2 clause listed).2
  | update stmt =>
    simp only [literals, List.forall_mem_append, List.forall_mem_map]
    exact ⟨fun pair listed => (clean.2.1 pair listed).2,
      fun clause listed => (clean.2.2 clause listed).2⟩
  | delete stmt =>
    simp only [literals, List.forall_mem_map]
    exact fun clause listed => (clean.2 clause listed).2

theorem clean_unparse (can : expressible stmt) (clean : ∀ value ∈ literals stmt, Clean value) :
    Clean (unparse stmt) := by
  obtain ⟨-, named⟩ := expressible_iff.mp can
  intro there
  obtain ⟨made, listed, there⟩ := List.mem_flatMap.mp there
  have written := (known_spell stmt made listed).clean named clean
  obtain blank | there := List.mem_cons.mp there
  · exact absurd blank (by decide)
  · exact written there

/-- No token ends in a carriage return, which the server would take off the line. -/
theorem Known.ends {ns ls : List Str} {made : TokenType × Str} (known : Known ns ls made)
    (named : ∀ text ∈ ns, isName text) :
    write made ≠ [] ∧ (write made).getLast? ≠ some '\r' := by
  have fixed : ∀ text ∈ keywords ++ marks ++ operators, text ≠ [] ∧ text.getLast? ≠ some '\r' := by
    decide
  cases known with
  | @word word listed => exact fixed word (by simp [listed])
  | @mark text listed => exact fixed text (by simp [listed])
  | @operator text listed => exact fixed text (by simp [listed])
  | @name text listed =>
    obtain ⟨some, goes⟩ := isIdentChar_of_isName (named _ listed)
    refine ⟨some, fun last => ?_⟩
    exact absurd (goes _ (List.mem_of_getLast? last)) (by decide)
  | @literal value listed =>
    have quote : (write (Printing.literal value)).getLast? = some '\'' := by
      change ((_ :: _) ++ [_]).getLast? = _
      rw [List.getLast?_concat]
    exact ⟨by simp [write, Printing.literal], by rw [quote]; decide⟩

theorem spell_ne_nil (stmt : Statement) : spell stmt ≠ [] := by
  cases stmt <;> simp [spell]

theorem unparse_ends (can : expressible stmt) :
    unparse stmt ≠ [] ∧ (unparse stmt).getLast? ≠ some '\r' := by
  have last := known_spell stmt _ (List.getLast_mem (spell_ne_nil stmt))
  obtain ⟨some, other⟩ := last.ends (expressible_iff.mp can).2
  rw [unparse, ← List.dropLast_append_getLast (spell_ne_nil stmt), List.flatMap_append,
    List.flatMap_singleton]
  refine ⟨by simp, ?_⟩
  rwa [List.getLast?_append_of_ne_nil _ (List.cons_ne_nil _ _), List.getLast?_cons_of_ne_nil some]

/-- The statements that queries stand for are those with names that are words and not
keywords, and with no list left empty that the grammar has no empty form for, whatever
their literals are; and each of them stands for its own text. On one line, as a query
comes over the wire, the literals have to be on one line too, and no more than that. -/
theorem statements_print_and_compile (stmt : Statement) :
    ((∃ query, compile query = .ok stmt) ↔ expressible stmt) ∧
      (compile (unparse stmt) = .ok stmt ↔ expressible stmt) ∧
      ((∃ query, Clean query ∧ compile query = .ok stmt) ↔
        Clean (unparse stmt) ∧ compile (unparse stmt) = .ok stmt) ∧
      ((∃ query, Clean query ∧ compile query = .ok stmt) ↔
        expressible stmt ∧ ∀ value ∈ literals stmt, Clean value) := by
  have oneLine : ∀ query, Clean query → compile query = .ok stmt →
      expressible stmt ∧ ∀ value ∈ literals stmt, Clean value := by
    intro query clean compiles
    have tidy := compile_tidy clean
    rw [compiles] at tidy
    exact ⟨expressible_of_compile compiles, literals_of_clean tidy⟩
  have printed : (expressible stmt ∧ ∀ value ∈ literals stmt, Clean value) →
      Clean (unparse stmt) ∧ compile (unparse stmt) = .ok stmt :=
    fun ⟨can, clean⟩ => ⟨clean_unparse can clean, compile_unparse can⟩
  refine ⟨⟨fun ⟨query, compiles⟩ => expressible_of_compile compiles,
    fun can => ⟨_, compile_unparse can⟩⟩, ⟨expressible_of_compile, compile_unparse⟩, ⟨?_, ?_⟩, ?_, ?_⟩
  · rintro ⟨query, clean, compiles⟩
    exact printed (oneLine query clean compiles)
  · exact fun holds => ⟨_, holds⟩
  · rintro ⟨query, clean, compiles⟩
    exact oneLine query clean compiles
  · exact fun holds => ⟨_, printed holds⟩

end Queries

end CppDB.Printing
