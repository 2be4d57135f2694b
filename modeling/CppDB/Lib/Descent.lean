import Mathlib

/-! Recursive descent over a token list that ends in a sentinel, and the relation
between such a parser and a grammar. A parser returns a value with the tokens it
leaves, throws, or is stuck: it read past the last token or a loop did not end
within its rounds. -/
namespace Descent

def Parser (T E α : Type) := List T → Option (Except E (α × List T))

variable {T E α β : Type}

instance parserMonad : Monad (Parser T E) where
  pure a := fun ts => some (.ok (a, ts))
  bind p f := fun ts =>
    match p ts with
    | none => none
    | some (.error e) => some (.error e)
    | some (.ok (a, rest)) => f a rest

def raise (e : E) : Parser T E α := fun _ => some (.error e)

def peek : Parser T E T
  | [] => none
  | t :: rest => some (.ok (t, t :: rest))

/-- Read the next token and step over it, unless it is the sentinel. -/
def advance (isEnd : T → Bool) : Parser T E T
  | [] => none
  | t :: rest => some (.ok (t, if isEnd t then t :: rest else rest))

section Equations

variable {p : Parser T E α} {f : α → Parser T E β} {ts rest : List T} {a : α} {e : E}

theorem pure_apply : (pure a : Parser T E α) ts = some (.ok (a, ts)) := rfl

theorem bind_ok (h : p ts = some (.ok (a, rest))) : (p >>= f) ts = f a rest := by
  simp only [bind, h]

theorem bind_error (h : p ts = some (.error e)) : (p >>= f) ts = some (.error e) := by
  simp only [bind, h]

theorem bind_returns {b : β} (returns : (p >>= f) ts = some (.ok (b, rest))) :
    ∃ a between, p ts = some (.ok (a, between)) ∧ f a between = some (.ok (b, rest)) := by
  cases run : p ts with
  | none => simp only [bind, run, reduceCtorEq] at returns
  | some answer =>
    cases answer with
    | error e =>
      rw [bind_error run] at returns
      cases returns
    | ok answer =>
      rw [bind_ok run] at returns
      exact ⟨answer.1, answer.2, rfl, returns⟩

theorem pure_then (a : α) (f : α → Parser T E β) : (pure a >>= f : Parser T E β) = f a := rfl

theorem bind_then {γ : Type} (p : Parser T E α) (f : α → Parser T E β) (k : β → Parser T E γ) :
    p >>= f >>= k = p >>= fun a => f a >>= k := by
  funext ts
  cases run : p ts with
  | none => simp only [bind, run]
  | some answer => cases answer <;> simp only [bind, run]

theorem peek_bind (t : T) (k : T → Parser T E α) : (peek >>= k) (t :: ts) = k t (t :: ts) := rfl

end Equations

/-- At most the given number of rounds of: an item, then go on if a separator follows. -/
def rounds (isEnd sep : T → Bool) (item : Parser T E α) : Nat → Parser T E (List α)
  | 0 => fun _ => none
  | n + 1 => do
    let a ← item
    let next ← peek
    if sep next then do
      let _ ← advance isEnd
      let others ← rounds isEnd sep item n
      return a :: others
    else
      return [a]

/-- The loop over items and separators; each further round has stepped over a token. -/
def separated (isEnd sep : T → Bool) (item : Parser T E α) : Parser T E (List α) :=
  fun ts => rounds isEnd sep item ts.length ts

/-- Items derived one after the other with a separator between two of them. -/
inductive Separated (sep : T → Bool) (item : α → List T → Prop) : List α → List T → Prop where
  | one {a u} (first : item a u) : Separated sep item [a] u
  | more {a u t others v} (first : item a u) (between : sep t)
      (rest : Separated sep item others v) : Separated sep item (a :: others) (u ++ t :: v)

theorem Separated.ne_nil {sep : T → Bool} {item : α → List T → Prop} {items : List α} {u : List T}
    (derived : Separated sep item items u) : items ≠ [] := by
  cases derived <;> exact List.cons_ne_nil _ _

theorem Separated.exists_item {sep : T → Bool} {item : α → List T → Prop} {items : List α}
    {u : List T} (derived : Separated sep item items u) {a : α} (listed : a ∈ items) :
    ∃ v, item a v ∧ v ⊆ u := by
  induction derived with
  | one first =>
    obtain rfl := List.mem_singleton.mp listed
    exact ⟨_, first, List.Subset.refl _⟩
  | more first between rest ih =>
    obtain rfl | listed := List.mem_cons.mp listed
    · exact ⟨_, first, List.subset_append_left _ _⟩
    · obtain ⟨v, there, inside⟩ := ih listed
      exact ⟨v, there, fun t member =>
        List.mem_append_right _ (List.mem_cons_of_mem _ (inside member))⟩

/-- The list is not empty and its first token satisfies the condition. -/
def Begins (first : T → Prop) (u : List T) : Prop := ∃ t rest, u = t :: rest ∧ first t

theorem Begins.append {first : T → Prop} {u : List T} (h : Begins first u) (v : List T) :
    Begins first (u ++ v) := by
  obtain ⟨t, rest, rfl, good⟩ := h
  exact ⟨t, rest ++ v, rfl, good⟩

theorem Separated.begins {sep : T → Bool} {item : α → List T → Prop} {first : T → Prop}
    (head : ∀ a u, item a u → Begins first u) {items : List α} {u : List T}
    (derived : Separated sep item items u) : Begins first u := by
  cases derived with
  | one derived => exact head _ _ derived
  | more derived => exact (head _ _ derived).append _

/-- A token list made of one part after the other. -/
def sequence : List (List T → Prop) → List T → Prop
  | [], tokens => tokens = []
  | part :: parts, tokens => ∃ front back, tokens = front ++ back ∧ part front ∧ sequence parts back

theorem exists_part {parts : List (List T → Prop)} {tokens : List T} (derived : sequence parts tokens)
    {part : List T → Prop} (listed : part ∈ parts) : ∃ u, part u ∧ u ⊆ tokens := by
  induction parts generalizing tokens with
  | nil => contradiction
  | cons first parts ih =>
    obtain ⟨u, v, rfl, here, others⟩ := derived
    obtain rfl | listed := List.mem_cons.mp listed
    · exact ⟨u, here, List.subset_append_left u v⟩
    · obtain ⟨w, there, inside⟩ := ih others listed
      exact ⟨w, there, List.Subset.trans inside (List.subset_append_right u v)⟩

/-- The values that satisfy a condition, each spelled by its parts. -/
def Spells (parts : α → List (List T → Prop)) (holds : α → Prop) (a : α) (tokens : List T) : Prop :=
  sequence (parts a) tokens ∧ holds a

/-- The token list ends in its only sentinel. -/
def Terminated (isEnd : T → Bool) (ts : List T) : Prop :=
  ∃ body last, ts = body ++ [last] ∧ isEnd last ∧ ∀ t ∈ body, isEnd t = false

variable {isEnd sep test : T → Bool}

theorem Terminated.exists_cons {ts : List T} (h : Terminated isEnd ts) :
    ∃ t rest, ts = t :: rest ∧ (isEnd t = false → Terminated isEnd rest) := by
  obtain ⟨body, last, rfl, ends, inner⟩ := h
  cases body with
  | nil => exact ⟨last, [], rfl, fun h => by rw [ends] at h; contradiction⟩
  | cons t body =>
    exact ⟨t, body ++ [last], rfl, fun _ =>
      ⟨body, last, rfl, ends, fun u hu => inner u (List.mem_cons_of_mem t hu)⟩⟩

theorem Terminated.of_end {t : T} {rest : List T} (h : Terminated isEnd (t :: rest))
    (ends : isEnd t) : rest = [] := by
  obtain ⟨body, last, split, -, inner⟩ := h
  cases body with
  | nil => exact (List.cons.inj split).2
  | cons u body =>
    have first := inner u (List.mem_cons_self ..)
    rw [← (List.cons.inj split).1, ends] at first
    contradiction

/-- The token behind a prefix that may be empty decides with it what comes first. -/
theorem exists_first (used : List T) (next : T) (rest : List T) :
    ∃ t tail, used ++ next :: rest = t :: tail ∧ t ∈ (used ++ [next]).head? := by
  cases used with
  | nil => exact ⟨next, rest, rfl, rfl⟩
  | cons t used => exact ⟨t, used ++ next :: rest, rfl, rfl⟩

/-- What a parser does on a token list: throw, or read a derivation of its value. -/
def Answers (isEnd : T → Bool) (p : Parser T E α) (grammar : α → List T → Prop) (ts : List T) :
    Prop :=
  (∃ e, p ts = some (.error e)) ∨
    ∃ a used rest, p ts = some (.ok (a, rest)) ∧ Terminated isEnd rest ∧ ts = used ++ rest ∧
      grammar a used

/-- The parser reads exactly the derivations of the grammar, provided the token behind
a derivation satisfies `follow`. -/
structure Reads (isEnd : T → Bool) (p : Parser T E α) (grammar : α → List T → Prop)
    (follow : T → Prop) : Prop where
  sound : ∀ ts, Terminated isEnd ts → Answers isEnd p grammar ts
  complete : ∀ a used next rest, grammar a used → follow next →
    p (used ++ next :: rest) = some (.ok (a, next :: rest))

/-- The first token of the derivations, or of what follows an empty one. -/
def Starts (grammar : α → List T → Prop) (follow first : T → Prop) : Prop :=
  ∀ a used next, grammar a used → follow next → ∀ t ∈ (used ++ [next]).head?, first t

theorem advance_of_inner {t : T} (inner : isEnd t = false) (rest : List T) :
    (advance isEnd : Parser T E T) (t :: rest) = some (.ok (t, rest)) := by
  simp only [advance, inner, Bool.false_eq_true, if_false]

theorem Starts.trivial {grammar : α → List T → Prop} {follow : T → Prop} :
    Starts grammar follow fun _ => True :=
  fun _ _ _ _ _ _ _ => True.intro

theorem Starts.of_begins {grammar : α → List T → Prop} {follow first : T → Prop}
    (head : ∀ a u, grammar a u → Begins first u) : Starts grammar follow first := by
  rintro a u next derived - t isFirst
  obtain ⟨u, rest, rfl, good⟩ := head a u derived
  obtain rfl := Option.some.inj isFirst
  exact good

/-- Behind a first part that is never empty, what follows does not matter. -/
theorem Starts.part {parts : α → List (List T → Prop)} {part : α → List T → Prop}
    {holds : α → Prop} {follow first : T → Prop} (head : ∀ a v, part a v → Begins first v) :
    Starts (Spells (fun a => part a :: parts a) holds) follow first := by
  apply Starts.of_begins
  rintro a _ ⟨⟨v, w, rfl, derived, -⟩, -⟩
  exact (head a v derived).append w

/-- Where no part is left, what follows comes first. -/
theorem Starts.nil {holds : α → Prop} {follow first : T → Prop} (narrower : ∀ t, follow t → first t) :
    Starts (Spells (fun _ => []) holds) follow first := by
  rintro a _ next ⟨rfl, -⟩ follows t isFirst
  obtain rfl := Option.some.inj isFirst
  exact narrower next follows

namespace Reads

variable {p q : Parser T E α} {f : α → Parser T E β} {g g' : α → List T → Prop}
  {s : α → β → List T → Prop} {follow follow' : T → Prop}

theorem congr (h : Reads isEnd p g follow) (same : ∀ a u, g a u ↔ g' a u) :
    Reads isEnd p g' follow := by
  have : g = g' := funext fun a => funext fun u => propext (same a u)
  exact this ▸ h

theorem weaken (h : Reads isEnd p g follow) (narrower : ∀ t, follow' t → follow t) :
    Reads isEnd p g follow' where
  sound := h.sound
  complete a used next rest derived follows := h.complete a used next rest derived
    (narrower next follows)

theorem pure (a : α) : Reads isEnd (pure a : Parser T E α) (fun b u => b = a ∧ u = []) follow where
  sound ts ends := .inr ⟨a, [], ts, rfl, ends, rfl, rfl, rfl⟩
  complete := by
    rintro _ _ next rest ⟨rfl, rfl⟩ -
    rfl

theorem raise (e : E) : Reads isEnd (raise e : Parser T E α) (fun _ _ => False) follow where
  sound _ _ := .inl ⟨e, rfl⟩
  complete _ _ _ _ derived := derived.elim

/-- A parser that steps over one token or throws, depending on that token. -/
theorem token {value : T → α} (accepts : ∀ t rest, test t → p (t :: rest) =
      some (.ok (value t, rest)))
    (refuses : ∀ t rest, test t = false → ∃ e, p (t :: rest) = some (.error e))
    (inner : ∀ t, test t → isEnd t = false) :
    Reads isEnd p (fun a u => ∃ t, u = [t] ∧ test t ∧ value t = a) follow where
  sound ts ends := by
    obtain ⟨t, rest, rfl, tail⟩ := ends.exists_cons
    cases passes : test t with
    | false => exact .inl (refuses t rest passes)
    | true =>
      exact .inr ⟨value t, [t], rest, accepts t rest passes, tail (inner t passes), rfl, t, rfl,
        passes, rfl⟩
  complete := by
    rintro _ _ next rest ⟨t, rfl, passes, rfl⟩ -
    exact accepts t (next :: rest) passes

theorem bind {first : T → Prop} (hp : Reads isEnd p g first)
    (hf : ∀ a, Reads isEnd (f a) (s a) follow) (starts : ∀ a, Starts (s a) follow first) :
    Reads isEnd (p >>= f) (fun b u => ∃ a v w, u = v ++ w ∧ g a v ∧ s a b w) follow where
  sound ts ends := by
    obtain ⟨e, throws⟩ | ⟨a, v, rest, reads, ends', rfl, derived⟩ := hp.sound ts ends
    · exact .inl ⟨e, bind_error throws⟩
    · rw [Answers, bind_ok reads]
      obtain ⟨e, throws⟩ | ⟨b, w, rest', reads', ends'', rfl, derived'⟩ := (hf a).sound rest ends'
      · exact .inl ⟨e, throws⟩
      · exact .inr ⟨b, v ++ w, rest', reads', ends'', (List.append_assoc ..).symm, a, v, w, rfl,
          derived, derived'⟩
  complete := by
    rintro b _ next rest ⟨a, v, w, rfl, derived, derived'⟩ follows
    obtain ⟨t, tail, split, isFirst⟩ := exists_first w next rest
    have accepted := starts a b w next derived' follows t isFirst
    rw [List.append_assoc, split, bind_ok (hp.complete a v t tail derived accepted), ← split]
    exact (hf a).complete b w next rest derived' follows

/-- A choice made on the next token, which one of the branches steps over. -/
theorem option {k : T → Parser T E α} (hk : ∀ t, Reads isEnd (k t) g follow)
    (hq : Reads isEnd q g' follow) (inner : ∀ t, test t → isEnd t = false)
    (no : Starts g' follow fun t => test t = false) :
    Reads isEnd (peek >>= fun t => if test t then advance isEnd >>= k else q)
      (fun a u => (∃ t v, u = t :: v ∧ test t ∧ g a v) ∨ g' a u) follow where
  sound ts ends := by
    obtain ⟨t, rest, rfl, tail⟩ := ends.exists_cons
    rw [Answers, peek_bind]
    cases passes : test t with
    | true =>
      rw [if_pos rfl, bind_ok (advance_of_inner (inner t passes) rest)]
      refine ((hk t).sound _ (tail (inner t passes))).imp_right ?_
      rintro ⟨a, used, rest', reads, ends', rfl, derived⟩
      exact ⟨a, t :: used, rest', reads, ends', rfl, .inl ⟨t, used, rfl, passes, derived⟩⟩
    | false =>
      refine (hq.sound _ ends).imp_right ?_
      rintro ⟨a, used, rest', reads, ends', split, derived⟩
      exact ⟨a, used, rest', reads, ends', split, .inr derived⟩
  complete := by
    rintro a used next rest (⟨t, v, rfl, passes, derived⟩ | derived) follows
    · rw [List.cons_append, peek_bind, if_pos passes, bind_ok (advance_of_inner (inner t passes) _)]
      exact (hk t).complete a v next rest derived follows
    · obtain ⟨t, tail, split, isFirst⟩ := exists_first used next rest
      rw [split, peek_bind, ← split, no a used next derived follows t isFirst]
      exact hq.complete a used next rest derived follows

/-- A choice the input has no part in. -/
theorem ite {c : Prop} [Decidable c] (hp : Reads isEnd p g follow) (hq : Reads isEnd q g' follow) :
    Reads isEnd (if c then p else q) (fun a u => if c then g a u else g' a u) follow := by
  by_cases h : c
  · simpa only [if_pos h] using hp
  · simpa only [if_neg h] using hq

/-- Looking at the first token of derivations that have one. -/
theorem peeked {k : T → Parser T E α} {g : T → α → List T → Prop}
    (hk : ∀ t, Reads isEnd (k t) (g t) follow) (reads : ∀ t a, ¬ g t a []) :
    Reads isEnd (peek >>= k) (fun a u => ∃ t, u.head? = some t ∧ g t a u) follow where
  sound ts ends := by
    obtain ⟨t, rest, rfl, -⟩ := ends.exists_cons
    rw [Answers, peek_bind]
    refine ((hk t).sound _ ends).imp_right ?_
    rintro ⟨a, used, rest', reads', ends', split, derived⟩
    refine ⟨a, used, rest', reads', ends', split, t, ?_, derived⟩
    cases used with
    | nil => exact (reads t a derived).elim
    | cons u used => exact congrArg some (List.cons.inj split).1.symm
  complete := by
    rintro a (- | ⟨u, used⟩) next rest ⟨t, head, derived⟩ follows
    · contradiction
    · obtain rfl := Option.some.inj head
      exact (hk u).complete a (u :: used) next rest derived follows

section Sequence

variable {part : List T → Prop} {parts : β → List (List T → Prop)} {holds : β → Prop}
  {parts' : α → List (List T → Prop)} {first : T → Prop}

/-- A part that leaves no trace in the value. -/
theorem skip (hp : Reads isEnd p g first) (spells : ∀ v, part v ↔ ∃ a, g a v)
    (hf : ∀ a, Reads isEnd (f a) (Spells parts holds) follow)
    (starts : Starts (Spells parts holds) follow first) :
    Reads isEnd (p >>= f) (Spells (fun b => part :: parts b) holds) follow := by
  refine (hp.bind hf fun _ => starts).congr fun b u => ?_
  constructor
  · rintro ⟨a, v, w, rfl, derived, others, sound⟩
    exact ⟨⟨v, w, rfl, (spells v).mpr ⟨a, derived⟩, others⟩, sound⟩
  · rintro ⟨⟨v, w, rfl, derived, others⟩, sound⟩
    obtain ⟨a, derived⟩ := (spells v).mp derived
    exact ⟨a, v, w, rfl, derived, others, sound⟩

/-- A part that is kept in a field of the value. -/
theorem field {field : β → α} (hp : Reads isEnd p g first)
    (hf : ∀ a, Reads isEnd (f a) (Spells parts fun b => holds b ∧ field b = a) follow)
    (starts : ∀ a, Starts (Spells parts fun b => holds b ∧ field b = a) follow first) :
    Reads isEnd (p >>= f) (Spells (fun b => g (field b) :: parts b) holds) follow := by
  refine (hp.bind hf starts).congr fun b u => ?_
  constructor
  · rintro ⟨_, v, w, rfl, derived, others, sound, rfl⟩
    exact ⟨⟨v, w, rfl, derived, others⟩, sound⟩
  · rintro ⟨⟨v, w, rfl, derived, others⟩, sound⟩
    exact ⟨field b, v, w, rfl, derived, others, sound, rfl⟩

/-- A test of what comes next. -/
theorem check (hp : Reads isEnd p (fun _ u => u = []) first)
    (hf : ∀ a, Reads isEnd (f a) (Spells parts holds) follow)
    (starts : Starts (Spells parts holds) follow first) (a : α) :
    Reads isEnd (p >>= f) (Spells parts holds) follow := by
  refine (hp.bind hf fun _ => starts).congr fun b u => ?_
  constructor
  · rintro ⟨_, _, w, rfl, rfl, derived⟩
    exact derived
  · intro derived
    exact ⟨a, [], u, rfl, rfl, derived⟩

theorem done {b : β} (only : ∀ c, holds c ↔ c = b) :
    Reads isEnd (Pure.pure b : Parser T E β) (Spells (fun _ => []) holds) follow := by
  refine (pure b).congr fun c u => ?_
  rw [← only]
  exact And.comm

theorem unconditional (reads : Reads isEnd p (Spells parts' fun _ => True) follow) :
    Reads isEnd p (fun a => sequence (parts' a)) follow :=
  reads.congr fun _ _ => and_iff_left trivial

end Sequence

theorem map {F : α → β} (hp : Reads isEnd p g follow) :
    Reads isEnd (p >>= fun a => Pure.pure (F a)) (fun b u => ∃ a, b = F a ∧ g a u) follow := by
  refine (hp.bind (fun a => pure (F a)) ?_).congr fun b u => ?_
  · rintro a b w next ⟨rfl, rfl⟩ follows t isFirst
    exact (Option.mem_some_iff.mp isFirst) ▸ follows
  · constructor
    · rintro ⟨a, v, _, rfl, derived, rfl, rfl⟩
      exact ⟨a, rfl, (List.append_nil v).symm ▸ derived⟩
    · rintro ⟨a, rfl, derived⟩
      exact ⟨a, u, [], (List.append_nil u).symm, derived, rfl, rfl⟩

section Separated

variable (hp : Reads isEnd p g fun _ => True) (inner : ∀ t, sep t → isEnd t = false)
include hp inner

/-- As many rounds as there are tokens are enough: each but the last steps over one. -/
theorem rounds_sound (n : Nat) {ts : List T} (ends : Terminated isEnd ts) (short : ts.length ≤ n) :
    Answers isEnd (rounds isEnd sep p n) (Separated sep g) ts := by
  induction n generalizing ts with
  | zero =>
    obtain ⟨t, rest, rfl, -⟩ := ends.exists_cons
    contradiction
  | succ n ih =>
    obtain ⟨e, throws⟩ | ⟨a, used, rest, reads, ends', rfl, derived⟩ := hp.sound ts ends
    · exact .inl ⟨e, bind_error throws⟩
    obtain ⟨t, rest, rfl, tail⟩ := ends'.exists_cons
    rw [Answers, rounds, bind_ok reads, peek_bind]
    cases another : sep t with
    | false => exact .inr ⟨[a], used, t :: rest, rfl, ends', rfl, .one derived⟩
    | true =>
      have ends'' := tail (inner t another)
      have shorter : rest.length ≤ n := by
        simp only [List.length_append, List.length_cons] at short
        omega
      rw [if_pos rfl, bind_ok (advance_of_inner (inner t another) rest)]
      obtain ⟨e, throws⟩ | ⟨others, v, rest', reads', ends3, rfl, derived'⟩ := ih ends'' shorter
      · exact .inl ⟨e, bind_error throws⟩
      · refine .inr ⟨a :: others, used ++ t :: v, rest', ?_, ends3, ?_,
          .more derived another derived'⟩
        · rw [bind_ok reads', pure_apply]
        · simp only [List.append_assoc, List.cons_append]

theorem rounds_complete {items : List α} {used : List T} (derived : Separated sep g items used)
    (n : Nat) {next : T} (rest : List T) (last : sep next = false)
    (short : (used ++ next :: rest).length ≤ n) :
    rounds isEnd sep p n (used ++ next :: rest) = some (.ok (items, next :: rest)) := by
  induction derived generalizing n with
  | one first =>
    obtain ⟨n, rfl⟩ : ∃ m, n = m + 1 :=
      ⟨n - 1, by simp only [List.length_append, List.length_cons] at short; omega⟩
    rw [rounds, bind_ok (hp.complete _ _ next rest first trivial), peek_bind, last]
    rfl
  | @more a u t others v first between derived ih =>
    simp only [List.append_assoc, List.cons_append, List.length_append, List.length_cons] at short ⊢
    obtain ⟨n, rfl⟩ : ∃ m, n = m + 1 := ⟨n - 1, by omega⟩
    have others := ih n (by simp only [List.length_append, List.length_cons]; omega)
    rw [rounds, bind_ok (hp.complete a u t (v ++ next :: rest) first trivial), peek_bind,
      if_pos between, bind_ok (advance_of_inner (inner t between) _), bind_ok others, pure_apply]

protected theorem separated : Reads isEnd (separated isEnd sep p) (Separated sep g)
    fun t => sep t = false where
  sound ts ends := rounds_sound hp inner ts.length ends (Nat.le_refl _)
  complete _ _ _ rest derived last :=
    rounds_complete hp inner derived _ rest last (Nat.le_refl _)

end Separated

end Reads

/-- Every run that returns leaves tokens that satisfy the condition. -/
def Leaves (left : List T → Prop) (p : Parser T E α) : Prop :=
  ∀ ts a rest, p ts = some (.ok (a, rest)) → left rest

namespace Leaves

variable {left : List T → Prop} {p q : Parser T E α} {f : α → Parser T E β}

theorem bind (h : ∀ a, Leaves left (f a)) : Leaves left (p >>= f) := by
  intro ts b rest returns
  obtain ⟨a, between, -, returns⟩ := bind_returns returns
  exact h a between b rest returns

/-- What comes behind the last parser that reads leaves the tokens as they are. -/
theorem still (hp : Leaves left p)
    (stays : ∀ a ts b rest, f a ts = some (.ok (b, rest)) → rest = ts) : Leaves left (p >>= f) := by
  intro ts b rest returns
  obtain ⟨a, between, first, returns⟩ := bind_returns returns
  exact stays a between b rest returns ▸ hp ts a between first

theorem andPure {F : α → β} (hp : Leaves left p) : Leaves left (p >>= fun a => pure (F a)) := by
  refine hp.still fun a ts b rest returns => ?_
  cases returns
  rfl

theorem ite {c : Prop} [Decidable c] (hp : Leaves left p) (hq : Leaves left q) :
    Leaves left (if c then p else q) := by
  split_ifs
  · exact hp
  · exact hq

end Leaves

/-- On tokens that are good, every error is of the given kind, and a value that is returned
satisfies the condition. -/
def Ensures (good : T → Prop) (kind : E → Prop) (p : Parser T E α) (post : α → Prop) : Prop :=
  ∀ ts, (∀ t ∈ ts, good t) →
    (∀ e, p ts = some (.error e) → kind e) ∧
      ∀ a rest, p ts = some (.ok (a, rest)) → post a ∧ ∀ t ∈ rest, good t

namespace Ensures

variable {good : T → Prop} {kind : E → Prop} {p q : Parser T E α} {f : α → Parser T E β}
  {post post' : α → Prop} {after : β → Prop}

theorem pure {a : α} (holds : post a) : Ensures good kind (pure a : Parser T E α) post := by
  intro ts all
  constructor
  · intro e fails
    cases fails
  · intro b rest returns
    cases returns
    exact ⟨holds, all⟩

theorem raise {e : E} (is : kind e) : Ensures good kind (raise e : Parser T E α) post := by
  intro ts all
  constructor
  · intro e' fails
    cases fails
    exact is
  · intro b rest returns
    cases returns

theorem peek : Ensures good kind (peek : Parser T E T) good := by
  intro ts all
  cases ts with
  | nil => exact ⟨nofun, nofun⟩
  | cons t ts =>
    constructor
    · intro e fails
      cases fails
    · intro a rest returns
      cases returns
      exact ⟨all t List.mem_cons_self, all⟩

theorem advance (isEnd : T → Bool) : Ensures good kind (advance isEnd : Parser T E T) good := by
  intro ts all
  cases ts with
  | nil => exact ⟨nofun, nofun⟩
  | cons t ts =>
    constructor
    · intro e fails
      cases fails
    · intro a rest returns
      cases returns
      refine ⟨all t List.mem_cons_self, ?_⟩
      split
      · exact all
      · exact fun u there => all u (List.mem_cons_of_mem _ there)

theorem bind (first : Ensures good kind p post) (second : ∀ a, post a → Ensures good kind (f a) after) :
    Ensures good kind (p >>= f) after := by
  intro ts all
  obtain ⟨throws, returns⟩ := first ts all
  constructor
  · intro e fails
    cases run : p ts with
    | none => simp only [Bind.bind, run, reduceCtorEq] at fails
    | some answer =>
      cases answer with
      | error e' =>
        rw [bind_error run] at fails
        cases fails
        exact throws _ run
      | ok answer =>
        obtain ⟨a, between⟩ := answer
        rw [bind_ok run] at fails
        obtain ⟨holds, kept⟩ := returns a between run
        exact (second a holds between kept).1 e fails
  · intro b rest ends
    obtain ⟨a, between, run, ends⟩ := bind_returns ends
    obtain ⟨holds, kept⟩ := returns a between run
    exact (second a holds between kept).2 b rest ends

/-- What the first parser returns is not looked at. -/
theorem followedBy {r : Parser T E β} (first : Ensures good kind p post)
    (second : Ensures good kind r after) : Ensures good kind (p >>= fun _ => r) after :=
  first.bind fun _ _ => second

theorem ite {c : Prop} [Decidable c] (hp : Ensures good kind p post) (hq : Ensures good kind q post) :
    Ensures good kind (if c then p else q) post := by
  split
  · exact hp
  · exact hq

theorem rounds (hp : Ensures good kind p post) (n : Nat) :
    Ensures good kind (rounds isEnd sep p n) fun items => ∀ a ∈ items, post a := by
  induction n with
  | zero =>
    intro ts all
    exact ⟨nofun, nofun⟩
  | succ n ih =>
    apply hp.bind
    intro a holds
    apply peek.bind
    intro next _
    apply ite
    · apply (advance isEnd).bind
      intro _ _
      apply ih.bind
      intro others all
      exact pure (List.forall_mem_cons.mpr ⟨holds, all⟩)
    · exact pure (List.forall_mem_singleton.mpr holds)

theorem separated (hp : Ensures good kind p post) :
    Ensures good kind (separated isEnd sep p) fun items => ∀ a ∈ items, post a :=
  fun ts all => hp.rounds ts.length ts all

end Ensures

end Descent
