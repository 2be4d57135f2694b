import CppDB.Lib.Census
import CppDB.Lib.Chain
import CppDB.Lib.Trace

/-! The queue of `concurrency/LockFreeQueue.hpp`, in sequentially consistent steps over a
memory of nodes. An address that was deleted may be given out again. A step that would
follow a pointer to a deleted node, or take the value out of a node without one, does not
exist. -/
namespace CppDB

namespace LockFreeQueue

structure Node (A V : Type) where
  value : Option V
  next : Option A

/-- Where a producer is in `push`: it has its node, or it has exchanged `tail_` and still
has to link the node that was there. -/
inductive Producer (A V : Type) where
  | idle
  | allocated (node : A) (item : V)
  | linking (prev node : A)

/-- Where the consumer is in `pop`, with the node it found behind the stub. -/
inductive Consumer (A : Type) where
  | idle
  | found (next : A)
  | moved (next : A)
  | deleted (next : A)

end LockFreeQueue

structure LockFreeQueue (P V A : Type) where
  heap : A → Option (LockFreeQueue.Node A V)
  head : A
  tail : A
  producer : P → LockFreeQueue.Producer A V
  consumer : LockFreeQueue.Consumer A

namespace LockFreeQueue

variable {P V A : Type}

inductive Event (P V : Type) where
  | exchanged (p : P) (item : V)
  | popped (item : V)
  | nothing

inductive Action (P V A : Type) where
  | allocate (p : P) (item : V) (node : A)
  | exchange (p : P)
  | link (p : P)
  | pop
  | empty
  | move
  | delete
  | advance

/-- `node->next`, null also for a node that is not there. -/
def nextOf (q : LockFreeQueue P V A) (node : A) : Option A := (q.heap node).bind Node.next

variable [DecidableEq P] [DecidableEq A]

def create (stub : A) : LockFreeQueue P V A where
  heap := Function.update (fun _ => none) stub (some ⟨none, none⟩)
  head := stub
  tail := stub
  producer := fun _ => .idle
  consumer := .idle

def step (q : LockFreeQueue P V A) :
    Action P V A → Option (LockFreeQueue P V A × List (Event P V))
  | .allocate p item node =>
    match q.producer p, q.heap node with
    | .idle, none =>
      some ({ q with
        heap := Function.update q.heap node (some ⟨some item, none⟩)
        producer := Function.update q.producer p (.allocated node item) }, [])
    | _, _ => none
  | .exchange p =>
    match q.producer p with
    | .allocated node item =>
      some ({ q with
        tail := node
        producer := Function.update q.producer p (.linking q.tail node) }, [.exchanged p item])
    | _ => none
  | .link p =>
    match q.producer p with
    | .linking prev node =>
      (q.heap prev).map fun content =>
        ({ q with
          heap := Function.update q.heap prev (some { content with next := some node })
          producer := Function.update q.producer p .idle }, [])
    | _ => none
  | .pop =>
    match q.consumer with
    | .idle => (q.heap q.head).map fun stub =>
      match stub.next with
      | none => (q, [.nothing])
      | some next => ({ q with consumer := .found next }, [])
    | _ => none
  | .empty =>
    match q.consumer with
    | .idle => (q.heap q.head).map fun stub =>
      match stub.next with
      | none => (q, [.nothing])
      | some _ => (q, [])
    | _ => none
  | .move =>
    match q.consumer with
    | .found next =>
      match q.heap next with
      | some ⟨some item, link⟩ =>
        some ({ q with
          heap := Function.update q.heap next (some ⟨none, link⟩)
          consumer := .moved next }, [.popped item])
      | _ => none
    | _ => none
  | .delete =>
    match q.consumer with
    | .moved next => (q.heap q.head).map fun _ =>
      ({ q with heap := Function.update q.heap q.head none, consumer := .deleted next }, [])
    | _ => none
  | .advance =>
    match q.consumer with
    | .deleted next => some ({ q with head := next, consumer := .idle }, [])
    | _ => none

/-! ### What a step does -/

/-- The ways a step can go. -/
inductive Takes (q : LockFreeQueue P V A) : LockFreeQueue P V A → List (Event P V) → Prop where
  | allocate (p : P) (item : V) (node : A) (comes : q.producer p = .idle)
      (free : q.heap node = none) :
      Takes q { q with
        heap := Function.update q.heap node (some ⟨some item, none⟩)
        producer := Function.update q.producer p (.allocated node item) } []
  | exchange (p : P) (node : A) (item : V) (comes : q.producer p = .allocated node item) :
      Takes q { q with
        tail := node
        producer := Function.update q.producer p (.linking q.tail node) } [.exchanged p item]
  | link (p : P) (prev node : A) (content : Node A V) (comes : q.producer p = .linking prev node)
      (there : q.heap prev = some content) :
      Takes q { q with
        heap := Function.update q.heap prev (some { content with next := some node })
        producer := Function.update q.producer p .idle } []
  | look (es : List (Event P V)) (idle : q.consumer = .idle)
      (reports : es = [] ∨ es = [.nothing] ∧ q.nextOf q.head = none) : Takes q q es
  | find (next : A) (idle : q.consumer = .idle) (found : q.nextOf q.head = some next) :
      Takes q { q with consumer := .found next } []
  | move (next : A) (item : V) (link : Option A) (comes : q.consumer = .found next)
      (there : q.heap next = some ⟨some item, link⟩) :
      Takes q { q with
        heap := Function.update q.heap next (some ⟨none, link⟩)
        consumer := .moved next } [.popped item]
  | delete (next : A) (comes : q.consumer = .moved next) :
      Takes q { q with heap := Function.update q.heap q.head none, consumer := .deleted next } []
  | advance (next : A) (comes : q.consumer = .deleted next) :
      Takes q { q with head := next, consumer := .idle } []

variable {q q' : LockFreeQueue P V A} {es es' : List (Event P V)}

omit [DecidableEq P] [DecidableEq A] in
theorem nextOf_eq {node : A} {content : Node A V} (there : q.heap node = some content) :
    q.nextOf node = content.next := by
  rw [nextOf, there, Option.bind_some]

theorem step_takes {a : Action P V A} (steps : q.step a = some (q', es')) : Takes q q' es' := by
  cases a with
  | allocate p item node =>
    rw [step] at steps
    split at steps
    case h_1 comes free =>
      cases steps
      exact .allocate p item node comes free
    case h_2 => cases steps
  | exchange p =>
    rw [step] at steps
    split at steps
    case h_1 node item comes =>
      cases steps
      exact .exchange p node item comes
    case h_2 => cases steps
  | link p =>
    rw [step] at steps
    split at steps
    case h_1 prev node comes =>
      obtain ⟨content, there, same⟩ := Option.map_eq_some_iff.mp steps
      cases same
      exact .link p prev node content comes there
    case h_2 => cases steps
  | pop =>
    rw [step] at steps
    split at steps
    case h_1 idle =>
      obtain ⟨stub, there, same⟩ := Option.map_eq_some_iff.mp steps
      split at same
      case h_1 none =>
        cases same
        exact .look _ idle (.inr ⟨rfl, (nextOf_eq there).trans none⟩)
      case h_2 next found =>
        cases same
        exact .find next idle ((nextOf_eq there).trans found)
    case h_2 => cases steps
  | empty =>
    rw [step] at steps
    split at steps
    case h_1 idle =>
      obtain ⟨stub, there, same⟩ := Option.map_eq_some_iff.mp steps
      split at same
      case h_1 none =>
        cases same
        exact .look _ idle (.inr ⟨rfl, (nextOf_eq there).trans none⟩)
      case h_2 =>
        cases same
        exact .look _ idle (.inl rfl)
    case h_2 => cases steps
  | move =>
    rw [step] at steps
    split at steps
    case h_1 next comes =>
      split at steps
      case h_1 item link there =>
        cases steps
        exact .move next item link comes there
      case h_2 => cases steps
    case h_2 => cases steps
  | delete =>
    rw [step] at steps
    split at steps
    case h_1 next comes =>
      obtain ⟨stub, there, same⟩ := Option.map_eq_some_iff.mp steps
      cases same
      exact .delete next comes
    case h_2 => cases steps
  | advance =>
    rw [step] at steps
    split at steps
    case h_1 next comes =>
      cases steps
      exact .advance next comes
    case h_2 => cases steps

/-! ### The chain -/

/-- An exchanged and not yet popped node, with the push it belongs to. -/
structure Cell (P V A : Type) where
  node : A
  producer : P
  item : V

/-- The nodes in the consumer's hands. -/
def held (q : LockFreeQueue P V A) : List A :=
  match q.consumer with
  | .idle | .found _ => [q.head]
  | .moved next => [q.head, next]
  | .deleted next => [next]

/-- The node in front of the cells: from the moment its value is out, the popped one. -/
def stub (q : LockFreeQueue P V A) : A :=
  match q.consumer with
  | .idle | .found _ => q.head
  | .moved next | .deleted next => next

/-- A cell hangs on the node in front of it, or its push has still to hang it there. -/
def Link (q : LockFreeQueue P V A) (y : A) (c : Cell P V A) : Prop :=
  q.producer c.producer = .linking y c.node ∧ q.nextOf y = none ∨
    (∀ x, q.producer c.producer ≠ .linking x c.node) ∧ q.nextOf y = some c.node

/-- The cells in the order of their exchanges hang one behind the other. -/
structure Linked (q : LockFreeQueue P V A) (cells : List (Cell P V A)) : Prop where
  nodup : (q.held ++ cells.map Cell.node).Nodup
  alive : ∀ node ∈ q.held, ∃ content, q.heap node = some content
  carries : ∀ c ∈ cells, ∃ link, q.heap c.node = some ⟨some c.item, link⟩
  links : ∀ y c, (y, c) ∈ Chain.neighbours Cell.node q.stub cells → q.Link y c
  ends : q.nextOf (Chain.last Cell.node q.stub cells) = none
  tail : q.tail = Chain.last Cell.node q.stub cells
  placed : ∀ p prev node, q.producer p = .linking prev node →
    ∃ c ∈ cells, c.producer = p ∧ c.node = node
  fresh : ∀ p node item, q.producer p = .allocated node item →
    q.heap node = some ⟨some item, none⟩ ∧ node ∉ q.held ++ cells.map Cell.node
  apart : ∀ p p' node item item', q.producer p = .allocated node item →
    q.producer p' = .allocated node item' → p = p'
  found : ∀ next, q.consumer = .found next → q.nextOf q.head = some next

variable {cells : List (Cell P V A)} {p : P} {prev node next : A} {item : V}

omit [DecidableEq P] [DecidableEq A] in
/-- The link of a cell depends on the node in front and on what its push is about to do. -/
theorem Link.frame {y : A} {c : Cell P V A} (link : q.Link y c)
    (same : q'.nextOf y = q.nextOf y)
    (push : ∀ x, q'.producer c.producer = .linking x c.node ↔
      q.producer c.producer = .linking x c.node) : q'.Link y c := by
  rcases link with ⟨pending, none⟩ | ⟨done, hangs⟩
  · exact .inl ⟨(push y).mpr pending, same.trans none⟩
  · exact .inr ⟨fun x linking => done x ((push x).mp linking), same.trans hangs⟩

namespace Linked

omit [DecidableEq P] in
theorem create (stub : A) : Linked (create stub : LockFreeQueue P V A) [] := by
  have there : (LockFreeQueue.create stub : LockFreeQueue P V A).heap stub = some ⟨none, none⟩ := by
    simp [LockFreeQueue.create]
  constructor
  · exact List.nodup_singleton stub
  · intro node held
    obtain rfl : node = stub := List.mem_singleton.mp held
    exact ⟨_, there⟩
  · intro c there
    cases there
  · intro y c there
    cases there
  · exact nextOf_eq there
  · rfl
  · intro p prev node linking
    cases linking
  · intro p node item allocated
    cases allocated
  · intro p p' node item item' allocated
    cases allocated
  · intro next found
    cases found

omit [DecidableEq P] [DecidableEq A]

theorem held_eq (q : LockFreeQueue P V A) : ∃ front, q.held = front ++ [q.stub] := by
  rw [held, stub]
  cases q.consumer with
  | idle | found | deleted => exact ⟨[], rfl⟩
  | moved => exact ⟨[q.head], rfl⟩

/-- The stub and the cells are among the nodes that are accounted for. -/
theorem sublist (q : LockFreeQueue P V A) (cells : List (Cell P V A)) :
    (q.stub :: cells.map Cell.node).Sublist (q.held ++ cells.map Cell.node) := by
  obtain ⟨front, held⟩ := held_eq q
  rw [held, List.append_assoc]
  exact List.sublist_append_right _ _

theorem nodes (linked : q.Linked cells) : (q.stub :: cells.map Cell.node).Nodup :=
  linked.nodup.sublist (sublist q cells)

theorem allocated_of_mem (linked : q.Linked cells) (there : node ∈ q.held ++ cells.map Cell.node) :
    ∃ content, q.heap node = some content := by
  rcases List.mem_append.mp there with there | there
  · exact linked.alive node there
  · obtain ⟨c, inside, rfl⟩ := List.mem_map.mp there
    obtain ⟨link, content⟩ := linked.carries c inside
    exact ⟨_, content⟩

/-- A push that has still to link has its cell behind the node it will link, whose link is
null; so that node is the stub or a cell, and not deleted. -/
theorem pending (linked : q.Linked cells) (comes : q.producer p = .linking prev node) :
    ∃ c, c.producer = p ∧ c.node = node ∧
      (prev, c) ∈ Chain.neighbours Cell.node q.stub cells ∧ q.nextOf prev = none := by
  obtain ⟨c, there, rfl, rfl⟩ := linked.placed p prev node comes
  obtain ⟨y, pair⟩ := Chain.exists_front (x := q.stub) there
  rcases linked.links y c pair with ⟨pending, none⟩ | ⟨done, -⟩
  · cases comes.symm.trans pending
    exact ⟨c, rfl, rfl, pair, none⟩
  · exact absurd comes (done prev)

theorem prev_mem (linked : q.Linked cells) (comes : q.producer p = .linking prev node) :
    prev ∈ q.held ++ cells.map Cell.node := by
  obtain ⟨c, -, -, pair, -⟩ := linked.pending comes
  exact (sublist q cells).subset (Chain.front_mem pair)

/-- If something hangs on the stub it is the first cell. -/
theorem first (linked : q.Linked cells) (hangs : q.nextOf q.stub = some next) :
    ∃ c rest, cells = c :: rest ∧ c.node = next ∧
      ∀ x, q.producer c.producer ≠ .linking x c.node := by
  cases cells with
  | nil => cases linked.ends.symm.trans hangs
  | cons c rest =>
    rcases linked.links q.stub c List.mem_cons_self with ⟨-, none⟩ | ⟨done, first⟩
    · cases none.symm.trans hangs
    · cases first.symm.trans hangs
      exact ⟨c, rest, rfl, rfl, done⟩

/-- A step that leaves the accounted nodes and the pending pushes alone, and may let go of
nodes. -/
theorem frame (linked : q.Linked cells) (held : q'.held.Sublist q.held) (stub : q'.stub = q.stub)
    (tail : q'.tail = q.tail)
    (heap : ∀ y ∈ q'.held ++ cells.map Cell.node, q'.heap y = q.heap y)
    (push : ∀ p x y, q'.producer p = .linking x y ↔ q.producer p = .linking x y)
    (fresh : ∀ p node item, q'.producer p = .allocated node item →
      q'.heap node = some ⟨some item, none⟩ ∧ node ∉ q'.held ++ cells.map Cell.node)
    (apart : ∀ p p' node item item', q'.producer p = .allocated node item →
      q'.producer p' = .allocated node item' → p = p')
    (found : ∀ next, q'.consumer = .found next → q'.nextOf q'.head = some next) :
    q'.Linked cells := by
  have next (y : A) (there : y ∈ q'.stub :: cells.map Cell.node) : q'.nextOf y = q.nextOf y :=
    congrArg (Option.bind · Node.next) (heap y ((sublist q' cells).subset there))
  constructor
  · exact linked.nodup.sublist (held.append_right _)
  · intro y there
    rw [heap y (List.mem_append_left _ there)]
    exact linked.alive y (held.subset there)
  · intro c there
    rw [heap c.node (List.mem_append_right _ (List.mem_map_of_mem there))]
    exact linked.carries c there
  · intro y c pair
    have same := next y (Chain.front_mem pair)
    rw [stub] at pair
    exact (linked.links y c pair).frame same fun x => push c.producer x c.node
  · rw [next _ Chain.last_mem, stub]
    exact linked.ends
  · rw [tail, stub]
    exact linked.tail
  · exact fun p x y linking => linked.placed p x y ((push p x y).mp linking)
  · exact fresh
  · exact apart
  · exact found

variable [DecidableEq P] [DecidableEq A]

theorem allocate (linked : q.Linked cells) (comes : q.producer p = .idle)
    (free : q.heap node = none) :
    Linked { q with
      heap := Function.update q.heap node (some ⟨some item, none⟩)
      producer := Function.update q.producer p (.allocated node item) } cells := by
  have away : node ∉ q.held ++ cells.map Cell.node := by
    intro there
    obtain ⟨content, is⟩ := linked.allocated_of_mem there
    cases free.symm.trans is
  have others (y : A) (content : Node A V) (is : q.heap y = some content) :
      Function.update q.heap node (some ⟨some item, none⟩) y = q.heap y := by
    apply Function.update_of_ne
    rintro rfl
    cases free.symm.trans is
  apply linked.frame
  · exact List.Sublist.refl _
  · rfl
  · rfl
  · intro y there
    obtain ⟨content, is⟩ := linked.allocated_of_mem there
    exact others y content is
  · intro p' x y
    by_cases is : p' = p
    · subst is
      simp [comes]
    · simp [is]
  · intro p' node' item' allocated
    rcases Census.stands_cases allocated with ⟨-, is⟩ | ⟨-, before⟩
    · cases is
      exact ⟨Function.update_self _ _ _, away⟩
    · obtain ⟨content, out⟩ := linked.fresh p' node' item' before
      exact ⟨(others node' _ content).trans content, out⟩
  · -- no other push holds the new node: what it holds is allocated already
    have held {p' : P} {node' : A} {item' : V}
        (allocated : q.producer p' = .allocated node' item') : node' ≠ node := by
      rintro rfl
      cases free.symm.trans (linked.fresh p' node' item' allocated).1
    intro p₁ p₂ node' item₁ item₂ first second
    rcases Census.stands_cases first with ⟨rfl, is₁⟩ | ⟨-, first⟩
    · rcases Census.stands_cases second with ⟨rfl, -⟩ | ⟨-, second⟩
      · rfl
      · cases is₁
        exact absurd rfl (held second)
    · rcases Census.stands_cases second with ⟨-, is₂⟩ | ⟨-, second⟩
      · cases is₂
        exact absurd rfl (held first)
      · exact linked.apart p₁ p₂ node' item₁ item₂ first second
  · intro next found
    have hangs := linked.found next found
    obtain ⟨content, there, is⟩ := Option.bind_eq_some_iff.mp hangs
    exact (nextOf_eq ((others _ _ there).trans there)).trans is

omit [DecidableEq A] in
theorem exchange (linked : q.Linked cells) (comes : q.producer p = .allocated node item) :
    Linked { q with
      tail := node
      producer := Function.update q.producer p (.linking q.tail node) }
      (cells ++ [⟨node, p, item⟩]) := by
  obtain ⟨content, out⟩ := linked.fresh p node item comes
  have before {p' : P} {node' : A} {item' : V} (allocated : Function.update q.producer p
      (.linking q.tail node) p' = .allocated node' item') :
      p' ≠ p ∧ q.producer p' = .allocated node' item' := by
    rcases Census.stands_cases allocated with ⟨-, is⟩ | before
    · cases is
    · exact before
  constructor
  · rw [List.map_append, ← List.append_assoc]
    apply List.nodup_append.mpr ⟨linked.nodup, List.nodup_singleton _, ?_⟩
    rintro y there x last rfl
    obtain rfl : y = node := List.mem_singleton.mp last
    exact out there
  · exact linked.alive
  · intro c there
    rcases List.mem_append.mp there with there | there
    · exact linked.carries c there
    · obtain rfl := List.mem_singleton.mp there
      exact ⟨none, content⟩
  · intro y c pair
    rw [Chain.neighbours_append] at pair
    rcases List.mem_append.mp pair with pair | pair
    · refine Link.frame (linked.links y c pair) rfl fun x => ?_
      by_cases is : c.producer = p
      · have other : node ≠ c.node := by
          rintro rfl
          exact out (List.mem_append_right _ (List.mem_map_of_mem (Chain.mem_of_neighbours pair)))
        simp [is, comes, other]
      · simp [is]
    · cases List.mem_singleton.mp pair
      left
      refine ⟨(Function.update_self _ _ _).trans ?_, linked.ends⟩
      exact congrArg (Producer.linking · node) linked.tail
  · rw [Chain.last_append]
    exact nextOf_eq content
  · rw [Chain.last_append]
  · intro p' prev' node' linking
    rcases Census.stands_cases linking with ⟨rfl, is⟩ | ⟨-, before⟩
    · cases is
      exact ⟨_, List.mem_append_right _ List.mem_cons_self, rfl, rfl⟩
    · obtain ⟨c, there, same⟩ := linked.placed p' prev' node' before
      exact ⟨c, List.mem_append_left _ there, same⟩
  · intro p' node' item' allocated
    obtain ⟨is, held⟩ := before allocated
    obtain ⟨content', out'⟩ := linked.fresh p' node' item' held
    refine ⟨content', ?_⟩
    rw [List.map_append, ← List.append_assoc, List.mem_append, not_or]
    refine ⟨out', ?_⟩
    intro there
    obtain rfl : node' = node := List.mem_singleton.mp there
    exact is (linked.apart p' p node' item' item held comes)
  · intro p₁ p₂ node' item₁ item₂ first second
    exact linked.apart p₁ p₂ node' item₁ item₂ (before first).2 (before second).2
  · exact linked.found

theorem link {content : Node A V} (linked : q.Linked cells)
    (comes : q.producer p = .linking prev node) (there : q.heap prev = some content) :
    Linked { q with
      heap := Function.update q.heap prev (some { content with next := some node })
      producer := Function.update q.producer p .idle } cells := by
  obtain ⟨c, rfl, rfl, pair, none⟩ := linked.pending comes
  have known := linked.prev_mem comes
  have before {p' : P} {place : Producer A V} (busy : place ≠ .idle)
      (is : Function.update q.producer c.producer .idle p' = place) : q.producer p' = place := by
    rcases Census.stands_cases is with ⟨-, idle⟩ | ⟨-, before⟩
    · exact absurd idle.symm busy
    · exact before
  have next {y : A} (other : y ≠ prev) :
      (Function.update q.heap prev (some { content with next := some c.node }) y).bind Node.next =
        q.nextOf y := by
    rw [Function.update_of_ne other, nextOf]
  constructor
  · exact linked.nodup
  · intro y held
    by_cases is : y = prev
    · subst is
      exact ⟨_, Function.update_self _ _ _⟩
    · obtain ⟨content', is'⟩ := linked.alive y held
      exact ⟨content', (Function.update_of_ne is _ _).trans is'⟩
  · intro d inside
    obtain ⟨hangs, is'⟩ := linked.carries d inside
    by_cases is : d.node = prev
    · cases there.symm.trans (is ▸ is')
      exact ⟨some c.node, is ▸ Function.update_self _ _ _⟩
    · exact ⟨hangs, (Function.update_of_ne is _ _).trans is'⟩
  · intro y d pair'
    by_cases is : y = prev
    · -- the cell behind `prev` is the one that is linked here
      subst is
      obtain rfl := Chain.eq_of_front linked.nodes pair pair'
      right
      refine ⟨fun x linking => ?_, ?_⟩
      · cases (Function.update_self _ _ q.producer).symm.trans linking
      · exact congrArg (·.bind Node.next)
          (Function.update_self y (some { content with next := some c.node }) q.heap)
    · rcases linked.links y d pair' with ⟨pending, free⟩ | ⟨done, hangs⟩
      · have other : d.producer ≠ c.producer := by
          intro same
          rw [same, comes] at pending
          exact is (Producer.linking.inj pending).1.symm
        exact .inl ⟨(Function.update_of_ne other _ _).trans pending, (next is).trans free⟩
      · exact .inr ⟨fun x linking => done x (before (by simp) linking), (next is).trans hangs⟩
  · exact (next (Chain.front_ne_last linked.nodes pair).symm).trans linked.ends
  · exact linked.tail
  · exact fun p' prev' node' linking => linked.placed p' prev' node' (before (by simp) linking)
  · intro p' node' item' allocated
    obtain ⟨content', out⟩ := linked.fresh p' node' item' (before (by simp) allocated)
    have other : node' ≠ prev := by
      rintro rfl
      exact out known
    exact ⟨(Function.update_of_ne other _ _).trans content', out⟩
  · intro p₁ p₂ node' item₁ item₂ first second
    exact linked.apart p₁ p₂ node' item₁ item₂ (before (by simp) first) (before (by simp) second)
  · intro found is
    have hangs := linked.found found is
    have other : q.head ≠ prev := by
      intro same
      rw [same] at hangs
      cases none.symm.trans hangs
    exact (next other).trans hangs

omit [DecidableEq P] [DecidableEq A] in
/-- The consumer goes on with the same nodes in its hands. -/
theorem turn {head : A} {consumer : Consumer A} (linked : q.Linked cells)
    (held : LockFreeQueue.held { q with head := head, consumer := consumer } = q.held)
    (stub : LockFreeQueue.stub { q with head := head, consumer := consumer } = q.stub)
    (found : ∀ next, consumer = .found next → q.nextOf head = some next) :
    Linked { q with head := head, consumer := consumer } cells := by
  apply linked.frame
  · rw [held]
  · exact stub
  · rfl
  · exact fun _ _ => rfl
  · exact fun _ _ _ => Iff.rfl
  · rw [held]
    exact linked.fresh
  · exact linked.apart
  · exact found

omit [DecidableEq P] [DecidableEq A] in
theorem find (linked : q.Linked cells) (idle : q.consumer = .idle)
    (found : q.nextOf q.head = some next) : Linked { q with consumer := .found next } cells := by
  apply linked.turn
  · rw [LockFreeQueue.held, LockFreeQueue.held, idle]
  · rw [LockFreeQueue.stub, LockFreeQueue.stub, idle]
  · rintro _ ⟨⟩
    exact found

omit [DecidableEq P] in
/-- The first cell gives its value up and becomes the stub. -/
theorem move {link : Option A} (linked : q.Linked cells) (comes : q.consumer = .found next)
    (there : q.heap next = some ⟨some item, link⟩) :
    ∃ c rest, cells = c :: rest ∧ c.item = item ∧ Linked { q with
      heap := Function.update q.heap next (some ⟨none, link⟩)
      consumer := .moved next } rest := by
  have held : q.held = [q.head] := by rw [LockFreeQueue.held, comes]
  have stub : q.stub = q.head := by rw [LockFreeQueue.stub, comes]
  obtain ⟨c, rest, rfl, rfl, done⟩ := linked.first (stub ▸ linked.found next comes)
  have nodup : ([q.head] ++ (c :: rest).map Cell.node).Nodup := held ▸ linked.nodup
  obtain ⟨behind, apart⟩ := List.nodup_cons.mp (List.nodup_cons.mp nodup).2
  have next (y : A) : (Function.update q.heap c.node (some ⟨none, link⟩) y).bind Node.next =
      q.nextOf y := by
    by_cases is : y = c.node
    · subst is
      rw [Function.update_self, nextOf_eq there, Option.bind_some]
    · rw [Function.update_of_ne is, nextOf]
  obtain ⟨hangs, carries⟩ := linked.carries c List.mem_cons_self
  refine ⟨c, rest, rfl, ?_, ?_⟩
  · cases there.symm.trans carries
    rfl
  constructor
  · exact nodup
  · intro y there
    by_cases is : y = c.node
    · subst is
      exact ⟨_, Function.update_self _ _ _⟩
    · obtain rfl : y = q.head := by simpa [LockFreeQueue.held, is] using there
      obtain ⟨content, alive⟩ := linked.alive q.head (held ▸ List.mem_cons_self)
      exact ⟨content, (Function.update_of_ne is _ _).trans alive⟩
  · intro d there
    obtain ⟨hangs, carries⟩ := linked.carries d (List.mem_cons_of_mem _ there)
    have other : d.node ≠ c.node := fun is => behind (is ▸ List.mem_map_of_mem there)
    exact ⟨hangs, (Function.update_of_ne other _ _).trans carries⟩
  · intro y d pair
    exact Link.frame (linked.links y d (List.mem_cons_of_mem _ pair)) (next y) fun _ => Iff.rfl
  · exact (next _).trans linked.ends
  · exact linked.tail
  · intro p prev node linking
    obtain ⟨d, there, rfl, rfl⟩ := linked.placed p prev node linking
    rcases List.mem_cons.mp there with rfl | there
    · exact absurd linking (done prev)
    · exact ⟨d, there, rfl, rfl⟩
  · intro p node item allocated
    obtain ⟨content, out⟩ := linked.fresh p node item allocated
    rw [held] at out
    have other : node ≠ c.node := by
      rintro rfl
      exact out (List.mem_append_right _ List.mem_cons_self)
    exact ⟨(Function.update_of_ne other _ _).trans content, out⟩
  · exact linked.apart
  · rintro _ ⟨⟩

omit [DecidableEq P] in
theorem delete (linked : q.Linked cells) (comes : q.consumer = .moved next) :
    Linked { q with heap := Function.update q.heap q.head none, consumer := .deleted next }
      cells := by
  have held : q.held = [q.head, next] := by rw [LockFreeQueue.held, comes]
  have stub : q.stub = next := by rw [LockFreeQueue.stub, comes]
  have nodup : ([q.head, next] ++ cells.map Cell.node).Nodup := held ▸ linked.nodup
  obtain ⟨gone, -⟩ := List.nodup_cons.mp nodup
  apply linked.frame
  · rw [held]
    exact List.sublist_cons_self _ _
  · exact stub.symm
  · rfl
  · intro y there
    have other : y ≠ q.head := by
      rintro rfl
      exact gone there
    exact Function.update_of_ne other _ _
  · exact fun _ _ _ => Iff.rfl
  · intro p node item allocated
    obtain ⟨content, out⟩ := linked.fresh p node item allocated
    rw [held] at out
    obtain ⟨other, out⟩ := List.ne_and_not_mem_of_not_mem_cons out
    exact ⟨(Function.update_of_ne other _ _).trans content, out⟩
  · exact linked.apart
  · rintro _ ⟨⟩

omit [DecidableEq P] [DecidableEq A] in
theorem advance (linked : q.Linked cells) (comes : q.consumer = .deleted next) :
    Linked { q with head := next, consumer := .idle } cells := by
  apply linked.turn
  · rw [LockFreeQueue.held, LockFreeQueue.held, comes]
  · rw [LockFreeQueue.stub, LockFreeQueue.stub, comes]
  · rintro _ ⟨⟩

end Linked

/-! ### What was pushed and what was popped -/

/-- The pushes of a history in the order of their exchanges. -/
def exchangedIn (es : List (Event P V)) : List (P × V) :=
  es.filterMap fun
    | .exchanged p item => some (p, item)
    | .popped _ => none
    | .nothing => none

def poppedIn (es : List (Event P V)) : List V :=
  es.filterMap fun
    | .exchanged _ _ => none
    | .popped item => some item
    | .nothing => none

omit [DecidableEq P] in
theorem exchangedIn_append (es es' : List (Event P V)) :
    exchangedIn (es ++ es') = exchangedIn es ++ exchangedIn es' :=
  List.filterMap_append

omit [DecidableEq P] in
theorem poppedIn_append (es es' : List (Event P V)) :
    poppedIn (es ++ es') = poppedIn es ++ poppedIn es' :=
  List.filterMap_append

def Cell.push (c : Cell P V A) : P × V := (c.producer, c.item)

/-- The pushes whose values are out come first, then those of the cells. -/
structure Fifo (q : LockFreeQueue P V A) (es : List (Event P V)) (out : List (P × V))
    (cells : List (Cell P V A)) : Prop where
  linked : q.Linked cells
  exchanged : exchangedIn es = out ++ cells.map Cell.push
  popped : poppedIn es = out.map Prod.snd

namespace Fifo

variable {out : List (P × V)}

omit [DecidableEq P] in
theorem create (stub : A) : Fifo (create stub : LockFreeQueue P V A) [] [] [] where
  linked := .create stub
  exchanged := rfl
  popped := rfl

omit [DecidableEq P] [DecidableEq A] in
theorem quiet (fifo : Fifo q es out cells) (linked : q'.Linked cells) :
    Fifo q' (es ++ []) out cells where
  linked := linked
  exchanged := by rw [List.append_nil, fifo.exchanged]
  popped := by rw [List.append_nil, fifo.popped]

theorem takes (fifo : Fifo q es out cells) (takes : Takes q q' es') :
    ∃ out' cells', Fifo q' (es ++ es') out' cells' := by
  cases takes with
  | allocate p item node comes free =>
    exact ⟨out, cells, fifo.quiet (fifo.linked.allocate comes free)⟩
  | exchange p node item comes =>
    refine ⟨out, cells ++ [⟨node, p, item⟩], fifo.linked.exchange comes, ?_, ?_⟩
    · rw [exchangedIn_append, fifo.exchanged, List.map_append, List.append_assoc]
      rfl
    · rw [poppedIn_append, fifo.popped]
      exact List.append_nil _
  | link p prev node content comes there =>
    exact ⟨out, cells, fifo.quiet (fifo.linked.link comes there)⟩
  | look es' idle reports =>
    rcases reports with rfl | ⟨rfl, -⟩
    · exact ⟨out, cells, fifo.quiet fifo.linked⟩
    · refine ⟨out, cells, fifo.linked, ?_, ?_⟩
      · rw [exchangedIn_append, fifo.exchanged]
        exact List.append_nil _
      · rw [poppedIn_append, fifo.popped]
        exact List.append_nil _
  | find next idle found => exact ⟨out, cells, fifo.quiet (fifo.linked.find idle found)⟩
  | move next item link comes there =>
    obtain ⟨c, rest, rfl, rfl, linked⟩ := fifo.linked.move comes there
    refine ⟨out ++ [c.push], rest, linked, ?_, ?_⟩
    · rw [exchangedIn_append, fifo.exchanged, List.append_assoc out [c.push]]
      exact List.append_nil _
    · rw [poppedIn_append, fifo.popped, List.map_append]
      rfl
  | delete next comes => exact ⟨out, cells, fifo.quiet (fifo.linked.delete comes)⟩
  | advance next comes => exact ⟨out, cells, fifo.quiet (fifo.linked.advance comes)⟩

theorem of_run {stub : A} (run : Trace.Run step Trace.free (LockFreeQueue.create stub) es q) :
    ∃ out cells, Fifo q es out cells := by
  apply run.invariant fun es q => ∃ out cells, Fifo q es out cells
  · exact ⟨[], [], .create stub⟩
  · intro es es' q q' a fifo _ steps
    obtain ⟨out, cells, fifo⟩ := fifo
    exact fifo.takes (step_takes steps)

omit [DecidableEq P] [DecidableEq A] in
/-- Nothing hangs on the stub: there is no cell, or the first one is not linked yet. -/
theorem waits (fifo : Fifo q es out cells) (none : q.nextOf q.stub = none) :
    exchangedIn es = out ∨ ∃ p item rest node link, exchangedIn es = out ++ (p, item) :: rest ∧
      q.producer p = .linking q.stub node ∧ q.heap node = some ⟨some item, link⟩ := by
  have exchanged := fifo.exchanged
  cases cells with
  | nil => exact .inl (exchanged.trans (List.append_nil out))
  | cons c rest =>
    obtain ⟨link, carries⟩ := fifo.linked.carries c List.mem_cons_self
    rcases fifo.linked.links q.stub c List.mem_cons_self with ⟨pending, -⟩ | ⟨-, hangs⟩
    · exact .inr ⟨c.producer, c.item, rest.map Cell.push, c.node, link, exchanged, pending, carries⟩
    · cases none.symm.trans hangs

end Fifo

/-- The values come out in the order of the exchanges. Whatever a producer or the consumer is
about to touch is there, and nothing is reported only when everything is out or the oldest
push that is not has its link still to store. -/
theorem lockFreeQueue_fifo {stub : A}
    (run : Trace.Run step Trace.free (create stub : LockFreeQueue P V A) es q) :
    (∃ out, out <+: exchangedIn es ∧ poppedIn es = out.map Prod.snd) ∧
    (∀ p prev node, q.producer p = .linking prev node → ∃ content, q.heap prev = some content) ∧
    (∀ node ∈ q.held, ∃ content, q.heap node = some content) ∧
    (∀ next, q.consumer = .found next → ∃ item link, q.heap next = some ⟨some item, link⟩) ∧
    ∀ a q' es', q.step a = some (q', es') → .nothing ∈ es' →
      poppedIn es = (exchangedIn es).map Prod.snd ∨
      ∃ out p item rest node link, exchangedIn es = out ++ (p, item) :: rest ∧
        poppedIn es = out.map Prod.snd ∧
        q.producer p = .linking q.head node ∧ q.heap node = some ⟨some item, link⟩ := by
  obtain ⟨out, cells, fifo⟩ := Fifo.of_run run
  refine ⟨⟨out, ⟨_, fifo.exchanged.symm⟩, fifo.popped⟩, ?_, fifo.linked.alive, ?_, ?_⟩
  · intro p prev node linking
    exact fifo.linked.allocated_of_mem (fifo.linked.prev_mem linking)
  · intro next found
    have stub : q.stub = q.head := by rw [LockFreeQueue.stub, found]
    obtain ⟨c, rest, rfl, rfl, -⟩ := fifo.linked.first (stub ▸ fifo.linked.found next found)
    obtain ⟨link, carries⟩ := fifo.linked.carries c List.mem_cons_self
    exact ⟨c.item, link, carries⟩
  · intro a q' es' steps reports
    cases step_takes steps with
    | look es' idle empty =>
      rcases empty with rfl | ⟨-, none⟩
      · cases reports
      have stub : q.stub = q.head := by rw [LockFreeQueue.stub, idle]
      rcases fifo.waits (stub ▸ none) with all | ⟨p, item, rest, node, link, exchanged, pending⟩
      · exact .inl (fifo.popped.trans (congrArg _ all.symm))
      · exact .inr ⟨out, p, item, rest, node, link, exchanged, fifo.popped, stub ▸ pending⟩
    | _ => simp at reports

/-- The second of two producers links its node before the first one does, and the first
comes back with another push while its value is popped. -/
def crossingRun : List (Action Bool Nat Nat) :=
  [.allocate true 7 1, .allocate false 8 2, .exchange true, .exchange false, .link false, .pop,
    .link true, .pop, .move, .allocate true 9 3, .delete, .exchange true, .advance, .pop]

theorem lockFreeQueue_fifo_crossing :
    ∃ (es : List (Event Bool Nat)) (q : LockFreeQueue Bool Nat Nat),
      Trace.Run step Trace.free (create 0) es q ∧ poppedIn es = [7] ∧
      exchangedIn es = [(true, 7), (false, 8), (true, 9)] ∧
      q.consumer = .found 2 ∧ (∃ item link, q.heap 2 = some ⟨some item, link⟩) ∧
      q.producer true = .linking 2 3 ∧ ∃ content, q.heap 2 = some content := by
  have run : Trace.Run step Trace.free _ ([] ++ _) _ := Trace.Run.start.exec
    (rfl : Trace.exec step (create 0) crossingRun = some (_, _)) fun _ _ _ _ => trivial
  obtain ⟨-, pending, -, found, -⟩ := lockFreeQueue_fifo run
  exact ⟨_, _, run, rfl, rfl, rfl, found 2 rfl, rfl, pending true 2 3 rfl⟩

end LockFreeQueue
end CppDB
