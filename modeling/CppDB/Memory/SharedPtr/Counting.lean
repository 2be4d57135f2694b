import CppDB.Lib.Census
import CppDB.Memory.SharedPtr.Model

/-! The strong counts. What is shown here the memory keeps by itself, whatever the threads
run: a count is the number of places that refer to the block, and a block whose count is zero
has exactly one thread that is about to delete it. -/
namespace CppDB.SharedPtr

variable {T X A C : Type} [DecidableEq C]

def Slot.refersTo (c : C) : Slot A C → Bool
  | .held (some (_, c')) => c' = c
  | .held none => false
  | .absent => false
  | .released _ => false

def Doomed.dooms (c : C) : Doomed A C → Bool
  | .nothing => false
  | .both _ c' => c' = c
  | .block c' => c' = c

theorem Doomed.dooms_of_both {d : Doomed A C} {a : A} {c : C} (both : d = .both a c) :
    d.dooms c = true := by
  rw [both, dooms, decide_eq_true rfl]

theorem Doomed.dooms_of_block {d : Doomed A C} {c : C} (block : d = .block c) :
    d.dooms c = true := by
  rw [block, dooms, decide_eq_true rfl]

/-- The references a block accounts for. -/
def ControlBlock.strong : ControlBlock → Int
  | .unborn => 0
  | .live n => n
  | .deleted => 0

/-- The threads that have to delete a block: one from the moment its count is zero. -/
def ControlBlock.deleters : ControlBlock → Int
  | .unborn => 0
  | .live 0 => 1
  | .live (_ + 1) => 0
  | .deleted => 0

/-- The counts are right, and the object that a block was made for lives as long as the block
is referred to. -/
structure Counted (madeFor : C → Option A) (m : Memory X A C) (doomed : T → Doomed A C) : Prop where
  counts : ∀ c, Census.Counts m.slot (Slot.refersTo c) (m.control c).strong
  deleters : ∀ c, Census.Counts doomed (Doomed.dooms c) (m.control c).deleters
  held : ∀ x a c, m.slot x = .held (some (a, c)) → madeFor c = some a
  alive : ∀ c n, m.control c = .live (n + 1) → ∃ a, madeFor c = some a ∧ m.object a = .alive
  both : ∀ t a c, doomed t = .both a c → madeFor c = some a ∧ m.object a = .alive
  block : ∀ t c, doomed t = .block c → ∃ a, madeFor c = some a ∧ m.object a = .deleted
  gone : ∀ c, m.control c = .deleted → ∃ a, madeFor c = some a ∧ m.object a = .deleted
  apart : ∀ a c c', madeFor c = some a → madeFor c' = some a → c = c'
  unborn : ∀ c, m.control c = .unborn → madeFor c = none

variable {madeFor : C → Option A} {m m' : Memory X A C} {doomed : T → Doomed A C} {t : T}
  {x : X} {a : A} {c : C} {n : Nat}

namespace Counted

/-- A block that is referred to has a positive count. -/
theorem live_of_held (counted : Counted madeFor m doomed) (held : m.slot x = .held (some (a, c))) :
    ∃ n, m.control c = .live (n + 1) := by
  have positive : (m.control c).strong ≠ 0 := by
    intro zero
    have absent := (counted.counts c).absent zero x
    simp [held, Slot.refersTo] at absent
  cases control : m.control c with
  | unborn => simp [control, ControlBlock.strong] at positive
  | deleted => simp [control, ControlBlock.strong] at positive
  | live n =>
    cases n with
    | zero => simp [control, ControlBlock.strong] at positive
    | succ n => exact ⟨n, rfl⟩

theorem zero_of_dooms (counted : Counted madeFor m doomed) (dooms : (doomed t).dooms c = true) :
    m.control c = .live 0 := by
  have positive : (m.control c).deleters ≠ 0 := by
    intro zero
    cases dooms.symm.trans ((counted.deleters c).absent zero t)
  cases control : m.control c with
  | unborn => simp [control, ControlBlock.deleters] at positive
  | deleted => simp [control, ControlBlock.deleters] at positive
  | live n =>
    cases n with
    | zero => rfl
    | succ n => simp [control, ControlBlock.deleters] at positive

theorem zero_of_both (counted : Counted madeFor m doomed) (both : doomed t = .both a c) :
    m.control c = .live 0 :=
  counted.zero_of_dooms (Doomed.dooms_of_both both)

theorem zero_of_block (counted : Counted madeFor m doomed) (block : doomed t = .block c) :
    m.control c = .live 0 :=
  counted.zero_of_dooms (Doomed.dooms_of_block block)

theorem exists_deleter (counted : Counted madeFor m doomed) (zero : m.control c = .live 0) :
    ∃ t, (∃ a, doomed t = .both a c) ∨ doomed t = .block c := by
  have one : (m.control c).deleters = 1 := by rw [zero, ControlBlock.deleters]
  obtain ⟨t, dooms⟩ := (counted.deleters c).exists_of_pos (by omega)
  refine ⟨t, ?_⟩
  cases stands : doomed t with
  | nothing => simp [stands, Doomed.dooms] at dooms
  | both a c' =>
    obtain rfl : c' = c := by simpa [stands, Doomed.dooms] using dooms
    exact .inl ⟨a, rfl⟩
  | block c' =>
    obtain rfl : c' = c := by simpa [stands, Doomed.dooms] using dooms
    exact .inr rfl

/-- A block is made for an object that was there. -/
theorem born (counted : Counted madeFor m doomed) (made : madeFor c = some a) :
    m.object a ≠ .unborn := by
  have same {a' : A} {o : Object} (is : madeFor c = some a' ∧ m.object a' = o) :
      m.object a = o := by
    cases is.1.symm.trans made
    exact is.2
  intro object
  cases control : m.control c with
  | unborn => cases made.symm.trans (counted.unborn c control)
  | deleted =>
    obtain ⟨a', gone⟩ := counted.gone c control
    cases object.symm.trans (same gone)
  | live n =>
    cases n with
    | succ n =>
      obtain ⟨a', alive⟩ := counted.alive c n control
      cases object.symm.trans (same alive)
    | zero =>
      obtain ⟨t, ⟨a', both⟩ | block⟩ := counted.exists_deleter control
      · cases object.symm.trans (same (counted.both t a' c both))
      · obtain ⟨a', deleted⟩ := counted.block t c block
        cases object.symm.trans (same deleted)

theorem create : Counted (fun _ => none)
    (⟨fun _ => .unborn, fun _ => .unborn, fun _ => .absent⟩ : Memory X A C)
    (fun _ : T => .nothing) := by
  constructor
  · exact fun _ => .nobody fun _ => rfl
  · exact fun _ => .nobody fun _ => rfl
  · intro x a c held
    cases held
  · intro c n live
    cases live
  · intro t a c both
    cases both
  · intro t c block
    cases block
  · intro c deleted
    cases deleted
  · intro a c c' made
    cases made
  · exact fun _ _ => rfl

/-- The references change places. -/
theorem shift {slot : X → Slot A C} (counted : Counted madeFor m doomed)
    (counts : ∀ c n, Census.Counts m.slot (Slot.refersTo c) n →
      Census.Counts slot (Slot.refersTo c) n)
    (held : ∀ x fields, slot x = .held (some fields) → ∃ y, m.slot y = .held (some fields)) :
    Counted madeFor { m with slot := slot } doomed where
  counts c := counts c _ (counted.counts c)
  deleters := counted.deleters
  held x a c there := by
    obtain ⟨y, before⟩ := held x (a, c) there
    exact counted.held y a c before
  alive := counted.alive
  both := counted.both
  block := counted.block
  gone := counted.gone
  apart := counted.apart
  unborn := counted.unborn

variable [DecidableEq X] [DecidableEq T]

omit [DecidableEq T] in
/-- One place changes that neither referred to anything nor does so now. -/
theorem set {content : Slot A C} (counted : Counted madeFor m doomed)
    (before : ∀ c, (m.slot x).refersTo c = false) (after : ∀ c, content.refersTo c = false) :
    Counted madeFor { m with slot := Function.update m.slot x content } doomed := by
  apply counted.shift
  · intro c n counts
    have moved := counts.move x content
    rw [before c, after c] at moved
    simpa using moved
  · intro y fields held
    rcases Census.stands_cases held with ⟨rfl, is⟩ | ⟨-, held⟩
    · have refers := after fields.2
      simp [is, Slot.refersTo] at refers
    · exact ⟨y, held⟩

omit [DecidableEq T] in
/-- A place takes over what another one holds, and that one refers from then on to what the
first place referred to. -/
theorem trade {other : X} {fields : Option (A × C)} {content : Slot A C}
    (counted : Counted madeFor m doomed) (there : m.slot other = .held fields)
    (same : ∀ c, content.refersTo c = (m.slot x).refersTo c)
    (kept : ∀ fields', content = .held (some fields') → m.slot x = .held (some fields')) :
    Counted madeFor { m with
      slot := Function.update (Function.update m.slot x (.held fields)) other content }
      doomed := by
  have between : Function.update m.slot x (.held fields) other = .held fields := by
    by_cases is : other = x
    · subst is
      exact Function.update_self _ _ _
    · exact (Function.update_of_ne is _ _).trans there
  apply counted.shift
  · intro c n counts
    have moved := (counts.move x (.held fields)).move other content
    rw [between, same c] at moved
    have sum (old new : Int) : n - old + new - new + old = n := by ring
    rwa [sum] at moved
  · intro y fields' held
    rcases Census.stands_cases held with ⟨-, is⟩ | ⟨-, held⟩
    · exact ⟨x, kept fields' is⟩
    · rcases Census.stands_cases held with ⟨-, is⟩ | ⟨-, held⟩
      · exact ⟨other, there.trans is⟩
      · exact ⟨y, held⟩

/-- The count of a block goes up or down with what the place `x` refers to. The thread that
takes it to zero has the block and its object to delete. -/
theorem recount {k : Nat} {content : Slot A C} (counted : Counted madeFor m doomed)
    (idle : doomed t = .nothing) (live : m.control c = .live (n + 1)) (made : madeFor c = some a)
    (counts : (k : Int) = n + 1 - ((m.slot x).refersTo c).toInt + (content.refersTo c).toInt)
    (others : ∀ c' ≠ c, content.refersTo c' = (m.slot x).refersTo c')
    (held : ∀ a c', content = .held (some (a, c')) → madeFor c' = some a) :
    Counted madeFor { m with
      control := Function.update m.control c (.live k)
      slot := Function.update m.slot x content }
      (Function.update doomed t (if k = 0 then .both a c else .nothing)) := by
  obtain ⟨a', made', alive⟩ := counted.alive c n live
  cases made'.symm.trans made
  constructor
  · intro c'
    have moved := (counted.counts c').move x content
    by_cases is : c' = c
    · subst is
      simp only [Function.update_self, ControlBlock.strong]
      rw [live, ControlBlock.strong] at moved
      rw [counts]
      simpa using moved
    · simp only [Function.update_of_ne is]
      rw [others c' is] at moved
      simpa using moved
  · intro c'
    have moved := (counted.deleters c').move t (if k = 0 then .both a c else .nothing)
    rw [idle] at moved
    by_cases is : c' = c
    · subst is
      simp only [Function.update_self]
      rw [live] at moved
      cases k <;> simpa [ControlBlock.deleters, Doomed.dooms] using moved
    · simp only [Function.update_of_ne is]
      have other : (if k = 0 then .both a c else .nothing : Doomed A C).dooms c' = false := by
        split
        · simpa [Doomed.dooms] using Ne.symm is
        · rfl
      rw [other] at moved
      simpa [Doomed.dooms] using moved
  · intro y a' c' there
    rcases Census.stands_cases there with ⟨-, is⟩ | ⟨-, there⟩
    · exact held a' c' is
    · exact counted.held y a' c' there
  · intro c' n' there
    rcases Census.stands_cases there with ⟨rfl, -⟩ | ⟨-, there⟩
    · exact ⟨a, made, alive⟩
    · exact counted.alive c' n' there
  · intro t' a' c' both
    rcases Census.stands_cases both with ⟨-, is⟩ | ⟨-, both⟩
    · split at is
      · cases is
        exact ⟨made, alive⟩
      · cases is
    · exact counted.both t' a' c' both
  · intro t' c' block
    rcases Census.stands_cases block with ⟨-, is⟩ | ⟨-, block⟩
    · split at is <;> cases is
    · exact counted.block t' c' block
  · intro c' deleted
    rcases Census.stands_cases deleted with ⟨-, is⟩ | ⟨-, deleted⟩
    · cases is
    · exact counted.gone c' deleted
  · exact counted.apart
  · intro c' unborn
    rcases Census.stands_cases unborn with ⟨-, is⟩ | ⟨-, unborn⟩
    · cases is
    · exact counted.unborn c' unborn

variable [DecidableEq A]

omit [DecidableEq T] in
/-- A constructor makes a block for its object. -/
theorem construct (counted : Counted madeFor m doomed) (here : m.slot x = .absent)
    (object : m.object a = .unborn) (control : m.control c = .unborn) :
    Counted (Function.update madeFor c (some a)) {
      object := Function.update m.object a .alive
      control := Function.update m.control c (.live 1)
      slot := Function.update m.slot x (.held (some (a, c))) } doomed := by
  have unreferred (y : X) (a' : A) (c' : C) (held : m.slot y = .held (some (a', c'))) : c' ≠ c := by
    rintro rfl
    obtain ⟨n, live⟩ := counted.live_of_held held
    cases control.symm.trans live
  have undoomed {t : T} {c' : C} (dooms : (doomed t).dooms c' = true) : c' ≠ c := by
    rintro rfl
    cases control.symm.trans (counted.zero_of_dooms dooms)
  have keeps {a' : A} {c' : C} {o : Object} (other : c' ≠ c)
      (is : madeFor c' = some a' ∧ m.object a' = o) :
      Function.update madeFor c (some a) c' = some a' ∧
        Function.update m.object a .alive a' = o := by
    have another : a' ≠ a := by
      rintro rfl
      exact counted.born is.1 object
    exact ⟨(Function.update_of_ne other _ _).trans is.1,
      (Function.update_of_ne another _ _).trans is.2⟩
  constructor
  · intro c'
    have moved := (counted.counts c').move x (.held (some (a, c)))
    rw [here] at moved
    by_cases is : c' = c
    · subst is
      rw [control] at moved
      simpa [ControlBlock.strong, Slot.refersTo] using moved
    · simpa [is, Slot.refersTo, Ne.symm is] using moved
  · intro c'
    have deleters := counted.deleters c'
    by_cases is : c' = c
    · subst is
      rw [control] at deleters
      simpa [ControlBlock.deleters] using deleters
    · simpa [is] using deleters
  · intro y a' c' held
    rcases Census.stands_cases held with ⟨-, is⟩ | ⟨-, held⟩
    · cases is
      exact Function.update_self c (some a) madeFor
    · exact (Function.update_of_ne (unreferred y a' c' held) _ _).trans (counted.held y a' c' held)
  · intro c' n live
    rcases Census.stands_cases live with ⟨rfl, -⟩ | ⟨other, live⟩
    · exact ⟨a, Function.update_self _ _ _, Function.update_self _ _ _⟩
    · obtain ⟨a', alive⟩ := counted.alive c' n live
      exact ⟨a', keeps other alive⟩
  · intro t a' c' both
    exact keeps (undoomed (Doomed.dooms_of_both both)) (counted.both t a' c' both)
  · intro t c' block
    obtain ⟨a', deleted⟩ := counted.block t c' block
    exact ⟨a', keeps (undoomed (Doomed.dooms_of_block block)) deleted⟩
  · intro c' deleted
    rcases Census.stands_cases deleted with ⟨-, is⟩ | ⟨other, deleted⟩
    · cases is
    · obtain ⟨a', gone⟩ := counted.gone c' deleted
      exact ⟨a', keeps other gone⟩
  · intro a' c₁ c₂ made₁ made₂
    rcases Census.stands_cases made₁ with ⟨rfl, is₁⟩ | ⟨-, before₁⟩
    · rcases Census.stands_cases made₂ with ⟨rfl, -⟩ | ⟨-, before₂⟩
      · rfl
      · cases is₁
        exact absurd object (counted.born before₂)
    · rcases Census.stands_cases made₂ with ⟨rfl, is₂⟩ | ⟨-, before₂⟩
      · cases is₂
        exact absurd object (counted.born before₁)
      · exact counted.apart a' c₁ c₂ before₁ before₂
  · intro c' unborn
    rcases Census.stands_cases unborn with ⟨-, is⟩ | ⟨other, unborn⟩
    · cases is
    · exact (Function.update_of_ne other _ _).trans (counted.unborn c' unborn)

omit [DecidableEq X] in
theorem deleteObject (counted : Counted madeFor m doomed) (stands : doomed t = .both a c) :
    Counted madeFor { m with object := Function.update m.object a .deleted }
      (Function.update doomed t (.block c)) := by
  obtain ⟨made, -⟩ := counted.both t a c stands
  have zero := counted.zero_of_both stands
  have other {a' : A} {c' : C} (is : c' ≠ c) (made' : madeFor c' = some a') : a' ≠ a := by
    rintro rfl
    exact is (counted.apart a' c' c made' made)
  have gone {a' : A} (deleted : m.object a' = .deleted) :
      Function.update m.object a .deleted a' = .deleted := by
    by_cases is : a' = a
    · subst is
      exact Function.update_self _ _ _
    · exact (Function.update_of_ne is _ _).trans deleted
  constructor
  · exact counted.counts
  · intro c'
    have moved := (counted.deleters c').move t (.block c)
    rw [stands] at moved
    simpa [Doomed.dooms] using moved
  · exact counted.held
  · intro c' n live
    have is : c' ≠ c := by
      rintro rfl
      cases zero.symm.trans live
    obtain ⟨a', made', alive⟩ := counted.alive c' n live
    exact ⟨a', made', (Function.update_of_ne (other is made') _ _).trans alive⟩
  · intro t' a' c' both
    rcases Census.stands_cases both with ⟨-, is⟩ | ⟨another, stands'⟩
    · cases is
    · obtain ⟨made', alive⟩ := counted.both t' a' c' stands'
      -- two threads never delete the same block
      have is : c' ≠ c := by
        rintro rfl
        have one : (m.control c').deleters = 1 := by rw [zero, ControlBlock.deleters]
        exact another ((counted.deleters c').eq_of_one one (Doomed.dooms_of_both stands')
          (Doomed.dooms_of_both stands))
      exact ⟨made', (Function.update_of_ne (other is made') _ _).trans alive⟩
  · intro t' c' block
    rcases Census.stands_cases block with ⟨-, is⟩ | ⟨-, block⟩
    · cases is
      exact ⟨a, made, Function.update_self _ _ _⟩
    · obtain ⟨a', made', deleted⟩ := counted.block t' c' block
      exact ⟨a', made', gone deleted⟩
  · intro c' deleted
    obtain ⟨a', made', deleted⟩ := counted.gone c' deleted
    exact ⟨a', made', gone deleted⟩
  · exact counted.apart
  · exact counted.unborn

omit [DecidableEq A] [DecidableEq X] in
theorem deleteControl (counted : Counted madeFor m doomed) (stands : doomed t = .block c) :
    Counted madeFor { m with control := Function.update m.control c .deleted }
      (Function.update doomed t .nothing) := by
  have zero := counted.zero_of_block stands
  constructor
  · intro c'
    have counts := counted.counts c'
    by_cases is : c' = c
    · subst is
      rw [zero] at counts
      simpa [ControlBlock.strong] using counts
    · simpa [is] using counts
  · intro c'
    have moved := (counted.deleters c').move t .nothing
    rw [stands] at moved
    by_cases is : c' = c
    · subst is
      rw [zero] at moved
      simpa [ControlBlock.deleters, Doomed.dooms] using moved
    · simpa [is, Ne.symm is, Doomed.dooms] using moved
  · exact counted.held
  · intro c' n live
    rcases Census.stands_cases live with ⟨-, is⟩ | ⟨-, live⟩
    · cases is
    · exact counted.alive c' n live
  · intro t' a' c' both
    rcases Census.stands_cases both with ⟨-, is⟩ | ⟨-, both⟩
    · cases is
    · exact counted.both t' a' c' both
  · intro t' c' block
    rcases Census.stands_cases block with ⟨-, is⟩ | ⟨-, block⟩
    · cases is
    · exact counted.block t' c' block
  · intro c' deleted
    rcases Census.stands_cases deleted with ⟨rfl, -⟩ | ⟨-, deleted⟩
    · exact counted.block t c' stands
    · exact counted.gone c' deleted
  · exact counted.apart
  · intro c' unborn
    rcases Census.stands_cases unborn with ⟨-, is⟩ | ⟨-, unborn⟩
    · cases is
    · exact counted.unborn c' unborn

omit [DecidableEq A] in
/-- Every instruction keeps the counts. -/
theorem exec {i : Instr X} {d : Doomed A C} (counted : Counted madeFor m doomed)
    (idle : doomed t = .nothing) (takes : m.Takes i m' d) :
    Counted madeFor m' (Function.update doomed t d) := by
  have same : Function.update doomed t .nothing = doomed := by
    rw [← idle, Function.update_eq_self]
  cases takes with
  | null x here =>
    rw [same]
    exact counted.set (fun c => by rw [here]; rfl) fun _ => rfl
  | copyNull x other here there =>
    rw [same]
    exact counted.set (fun c => by rw [here]; rfl) fun _ => rfl
  | copy x other a c n here there live =>
    obtain ⟨n, positive⟩ := counted.live_of_held there
    cases live.symm.trans positive
    have made := counted.held other a c there
    apply counted.recount (k := n + 1 + 1) idle positive made
    · simp [here, Slot.refersTo]
    · intro c' is
      simpa [here, Slot.refersTo] using Ne.symm is
    · rintro _ _ ⟨⟩
      exact made
  | move x other fields here there =>
    rw [same]
    apply counted.trade there
    · intro c
      rw [here]
      rfl
    · rintro _ ⟨⟩
  | swap x other fields fields' here there =>
    rw [same]
    apply counted.trade there
    · intro c
      rw [here]
    · rintro _ ⟨⟩
      exact here
  | releaseNull x here =>
    rw [same]
    exact counted.set (fun c => by rw [here]; rfl) fun _ => rfl
  | release x a c n here live =>
    apply counted.recount idle live (counted.held x a c here)
    · simp [here, Slot.refersTo]
    · intro c' is
      simpa [here, Slot.refersTo] using Ne.symm is
    · rintro _ _ ⟨⟩
  | clear x fields here =>
    rw [same]
    exact counted.set (fun c => by rw [here]; rfl) fun _ => rfl
  | vanish x fields here =>
    rw [same]
    exact counted.set (fun c => by rw [here]; rfl) fun _ => rfl

omit [DecidableEq T] [DecidableEq X] [DecidableEq A] in
/-- What becomes of a block that was made for an object. -/
theorem fate (counted : Counted madeFor m doomed) (made : madeFor c = some a) :
    (∃ x, m.slot x = .held (some (a, c))) ∨ (∃ t, doomed t = .both a c ∨ doomed t = .block c) ∨
      m.object a = .deleted ∧ m.control c = .deleted := by
  cases control : m.control c with
  | unborn => cases made.symm.trans (counted.unborn c control)
  | deleted =>
    obtain ⟨a', made', deleted⟩ := counted.gone c control
    cases made'.symm.trans made
    exact .inr (.inr ⟨deleted, rfl⟩)
  | live n =>
    cases n with
    | zero =>
      obtain ⟨t, ⟨a', both⟩ | block⟩ := counted.exists_deleter control
      · cases (counted.both t a' c both).1.symm.trans made
        exact .inr (.inl ⟨t, .inl both⟩)
      · exact .inr (.inl ⟨t, .inr block⟩)
    | succ n =>
      have counts := counted.counts c
      rw [control, ControlBlock.strong] at counts
      obtain ⟨x, refers⟩ := counts.exists_of_pos (by omega)
      match held : m.slot x with
      | .absent => simp [held, Slot.refersTo] at refers
      | .released _ => simp [held, Slot.refersTo] at refers
      | .held none => simp [held, Slot.refersTo] at refers
      | .held (some (a', c')) =>
        obtain rfl : c' = c := by simpa [held, Slot.refersTo] using refers
        cases (counted.held x a' c' held).symm.trans made
        exact .inl ⟨x, held⟩

end Counted

/-! ### What was constructed and what was deleted -/

def constructedIn (es : List (Event A C)) : List (A × C) :=
  es.filterMap fun
    | .constructed a c => some (a, c)
    | .deletedObject _ => none
    | .deletedControl _ => none

def deletedObjects (es : List (Event A C)) : List A :=
  es.filterMap fun
    | .constructed _ _ => none
    | .deletedObject a => some a
    | .deletedControl _ => none

def deletedControls (es : List (Event A C)) : List C :=
  es.filterMap fun
    | .constructed _ _ => none
    | .deletedObject _ => none
    | .deletedControl c => some c

omit [DecidableEq C] in
theorem constructedIn_append (es es' : List (Event A C)) :
    constructedIn (es ++ es') = constructedIn es ++ constructedIn es' :=
  List.filterMap_append

omit [DecidableEq C] in
theorem deletedObjects_append (es es' : List (Event A C)) :
    deletedObjects (es ++ es') = deletedObjects es ++ deletedObjects es' :=
  List.filterMap_append

omit [DecidableEq C] in
theorem deletedControls_append (es es' : List (Event A C)) :
    deletedControls (es ++ es') = deletedControls es ++ deletedControls es' :=
  List.filterMap_append

/-- The history has what was constructed, and what was deleted once. -/
structure Recorded (madeFor : C → Option A) (m : Memory X A C) (es : List (Event A C)) :
    Prop where
  constructed : ∀ a c, (a, c) ∈ constructedIn es → madeFor c = some a
  objects : Census.Lists .deleted (deletedObjects es) m.object
  controls : Census.Lists .deleted (deletedControls es) m.control

namespace Recorded

omit [DecidableEq C] in
theorem create :
    Recorded (fun _ => none) (⟨fun _ => .unborn, fun _ => .unborn, fun _ => .absent⟩ : Memory X A C)
      [] where
  constructed a c there := by cases there
  objects := ⟨List.nodup_nil, fun a => by simp [deletedObjects]⟩
  controls := ⟨List.nodup_nil, fun c => by simp [deletedControls]⟩

variable [DecidableEq X] {es : List (Event A C)}

theorem exec {i : Instr X} {d : Doomed A C} (recorded : Recorded madeFor m es)
    (takes : m.Takes i m' d) : Recorded madeFor m' es := by
  have recount {slot : X → Slot A C} {n k : Nat} {c : C} (live : m.control c = .live n) :
      Recorded madeFor { m with
        control := Function.update m.control c (.live k)
        slot := slot } es := by
    constructor
    · exact recorded.constructed
    · exact recorded.objects
    · exact recorded.controls.set (by simp [live]) (by simp)
  cases takes with
  | copy x other a c n here there live => exact recount live
  | release x a c n here live => exact recount live
  | _ => exact ⟨recorded.constructed, recorded.objects, recorded.controls⟩

variable [DecidableEq A]

theorem construct (recorded : Recorded madeFor m es) (object : m.object a = .unborn)
    (control : m.control c = .unborn) (made : madeFor c = none) :
    Recorded (Function.update madeFor c (some a)) {
      object := Function.update m.object a .alive
      control := Function.update m.control c (.live 1)
      slot := Function.update m.slot x (.held (some (a, c))) } (es ++ [Event.constructed a c]) := by
  constructor
  · intro a' c' there
    rw [constructedIn_append] at there
    rcases List.mem_append.mp there with there | there
    · have made' := recorded.constructed a' c' there
      have other : c' ≠ c := by
        rintro rfl
        cases made.symm.trans made'
      exact (Function.update_of_ne other _ _).trans made'
    · cases List.mem_singleton.mp there
      exact Function.update_self _ _ _
  · rw [deletedObjects_append]
    simpa [deletedObjects] using recorded.objects.set (d := .alive) (by simp [object]) (by simp)
  · rw [deletedControls_append]
    simpa [deletedControls] using
      recorded.controls.set (d := .live 1) (by simp [control]) (by simp)

omit [DecidableEq X] [DecidableEq C] in
theorem deleteObject (recorded : Recorded madeFor m es) (alive : m.object a = .alive) :
    Recorded madeFor { m with object := Function.update m.object a .deleted }
      (es ++ [Event.deletedObject a]) where
  constructed := by
    rw [constructedIn_append]
    simpa [constructedIn] using recorded.constructed
  objects := by
    rw [deletedObjects_append]
    exact recorded.objects.add (by simp [alive])
  controls := by
    rw [deletedControls_append]
    simpa [deletedControls] using recorded.controls

omit [DecidableEq X] [DecidableEq A] in
theorem deleteControl (recorded : Recorded madeFor m es) (live : m.control c = .live n) :
    Recorded madeFor { m with control := Function.update m.control c .deleted }
      (es ++ [Event.deletedControl c]) where
  constructed := by
    rw [constructedIn_append]
    simpa [constructedIn] using recorded.constructed
  objects := by
    rw [deletedObjects_append]
    simpa [deletedObjects] using recorded.objects
  controls := by
    rw [deletedControls_append]
    exact recorded.controls.add (by simp [live])

end Recorded

section Steps

variable {H : Type} {s s' : State T H A C} {es es' : List (Event A C)}

/-- What every step keeps, whatever the operations are. -/
def Kept (s : State T H A C) (es : List (Event A C)) : Prop :=
  ∃ madeFor, Counted madeFor s.memory s.doomed ∧ Recorded madeFor s.memory es

variable [DecidableEq T] [DecidableEq H] [DecidableEq A]

theorem Kept.next {action : Action T H A C} (kept : Kept s es) (takes : Takes s action s' es') :
    Kept s' (es ++ es') := by
  obtain ⟨madeFor, counted, recorded⟩ := kept
  cases takes with
  | call t op idle rests =>
    rw [List.append_nil]
    exact ⟨madeFor, counted, recorded⟩
  | construct t x rest a c idle stands here object control =>
    exact ⟨_, counted.construct here object control, recorded.construct object control
      (counted.unborn c control)⟩
  | instr t i rest memory doomed idle stands takes =>
    rw [List.append_nil]
    exact ⟨madeFor, counted.exec idle takes, recorded.exec takes⟩
  | deleteObject t a c stands alive =>
    exact ⟨madeFor, counted.deleteObject stands, recorded.deleteObject alive⟩
  | deleteControl t c n stands live =>
    exact ⟨madeFor, counted.deleteControl stands, recorded.deleteControl live⟩

end Steps

end CppDB.SharedPtr
