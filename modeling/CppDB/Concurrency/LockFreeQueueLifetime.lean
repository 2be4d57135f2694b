import CppDB.Concurrency.LockFreeQueue
import CppDB.Lib.Linked

/-! The lives of the nodes of a queue. Every node that was allocated and not deleted is the
stub, hangs behind it, or belongs to a push that has not exchanged it yet; so once the pushes
are over, the loop of the destructor deletes all that is left. -/
namespace CppDB.LockFreeQueue

variable {P V A : Type} [DecidableEq A]

/-- The loop of the destructor, for at most so many rounds: the memory it leaves behind and
the nodes in the order it deletes them. Following a pointer to a deleted node is `none`. -/
def deleteFrom : Nat → (A → Option (Node A V)) → Option A →
    Option ((A → Option (Node A V)) × List A)
  | _, heap, none => some (heap, [])
  | 0, _, some _ => none
  | rounds + 1, heap, some node => do
    let content ← heap node
    let (heap, deleted) ← deleteFrom rounds (Function.update heap node none) content.next
    return (heap, node :: deleted)

def destroy (q : LockFreeQueue P V A) (rounds : Nat) :
    Option ((A → Option (Node A V)) × List A) :=
  deleteFrom rounds q.heap (some q.head)

/-! ### The loop -/

/-- The links of the nodes in a memory. -/
def linkIn (heap : A → Option (Node A V)) (node : A) : Option (Option A) :=
  (heap node).map Node.next

/-- The loop deletes the nodes of a list, each of them once. -/
theorem deleteFrom_chain {heap : A → Option (Node A V)} {head : Option A} {nodes : List A}
    (chain : Linked.Chain (linkIn heap) head nodes) {rounds : Nat}
    (enough : nodes.length ≤ rounds) :
    deleteFrom rounds heap head =
      some (fun node => if node ∈ nodes then none else heap node, nodes) := by
  induction nodes generalizing heap head rounds with
  | nil =>
    obtain rfl : head = none := chain
    cases rounds <;> simp [deleteFrom]
  | cons node nodes ih =>
    have nodup := chain.nodup
    rw [List.nodup_cons] at nodup
    obtain ⟨rfl, next, link, rest⟩ := chain
    obtain ⟨content, there, rfl⟩ := Option.map_eq_some_iff.mp link
    obtain ⟨rounds, rfl⟩ := Nat.exists_eq_add_of_le' (Nat.le_trans (Nat.succ_pos _) enough)
    have rest' : Linked.Chain (linkIn (Function.update heap node none)) content.next nodes := by
      refine rest.congr fun other listed => ?_
      rw [linkIn, linkIn, Function.update_of_ne]
      rintro rfl
      exact nodup.1 listed
    rw [deleteFrom, there, Option.bind_eq_bind, Option.bind_some,
      ih rest' (Nat.le_of_succ_le_succ enough)]
    refine congrArg some (Prod.ext (funext fun other => ?_) rfl)
    by_cases same : other = node
    · simp [same]
    · simp [same]

/-! ### The nodes that hang behind the stub -/

variable {q q' : LockFreeQueue P V A} {es es' : List (Event P V)} {cells : List (Cell P V A)}
  {out : List (P × V)}

omit [DecidableEq A] in
/-- From an address on, the cells up to the first one whose push has still to link it. -/
theorem exists_chain {x : A} {cells : List (Cell P V A)}
    (alive : ∀ node ∈ x :: cells.map Cell.node, ∃ content, q.heap node = some content)
    (hangs : ∀ y c, (y, c) ∈ Chain.neighbours Cell.node x cells → q.Link y c)
    (ends : q.nextOf (Chain.last Cell.node x cells) = none) :
    ∃ front back, cells = front ++ back ∧
      Linked.Chain (linkIn q.heap) (some x) (x :: front.map Cell.node) ∧
      ((∀ p, q.producer p = .idle) → back = []) := by
  induction cells generalizing x with
  | nil =>
    obtain ⟨content, there⟩ := alive x List.mem_cons_self
    refine ⟨[], [], rfl, ⟨rfl, none, ?_, rfl⟩, fun _ => rfl⟩
    rw [linkIn, there, Option.map_some, ← nextOf_eq there]
    exact congrArg some ends
  | cons c rest ih =>
    obtain ⟨content, there⟩ := alive x List.mem_cons_self
    have link : linkIn q.heap x = some (q.nextOf x) := by
      rw [linkIn, there, Option.map_some, nextOf_eq there]
    obtain ⟨pending, gap⟩ | ⟨-, next⟩ := hangs x c List.mem_cons_self
    · refine ⟨[], c :: rest, rfl, ⟨rfl, none, gap ▸ link, rfl⟩, fun idle => ?_⟩
      cases (idle c.producer).symm.trans pending
    · obtain ⟨front, back, rfl, chain, whole⟩ :=
        ih (fun node listed => alive node (List.mem_cons_of_mem _ listed))
          (fun y c pair => hangs y c (List.mem_cons_of_mem _ pair)) ends
      exact ⟨c :: front, back, rfl, ⟨rfl, some c.node, next ▸ link, chain⟩, whole⟩

/-! ### Every node has its place -/

/-- What is in the consumer's hands has no value any more, and every node in the memory is
there, in a cell, or with a push that has still to exchange it. -/
structure Owned (q : LockFreeQueue P V A) (cells : List (Cell P V A)) : Prop where
  linked : q.Linked cells
  emptied : ∀ node ∈ q.held, ∃ link, q.heap node = some ⟨none, link⟩
  placed : ∀ node content, q.heap node = some content →
    node ∈ q.held ++ cells.map Cell.node ∨ ∃ p item, q.producer p = .allocated node item

namespace Owned

theorem create (stub : A) : Owned (create stub : LockFreeQueue P V A) [] where
  linked := .create stub
  emptied node held := by
    obtain rfl : node = stub := List.mem_singleton.mp held
    exact ⟨none, by simp [LockFreeQueue.create]⟩
  placed node content there := by
    by_cases same : node = stub
    · exact .inl (List.mem_append_left _ (List.mem_singleton.mpr same))
    · simp [LockFreeQueue.create, same] at there

omit [DecidableEq A] in
/-- The consumer moves and keeps its nodes. -/
theorem turn {head : A} {consumer : Consumer A} (owned : Owned q cells)
    (linked : Linked { q with head := head, consumer := consumer } cells)
    (held : LockFreeQueue.held { q with head := head, consumer := consumer } = q.held) :
    Owned { q with head := head, consumer := consumer } cells := by
  refine ⟨linked, ?_, ?_⟩
  · rw [held]
    exact owned.emptied
  · rw [held]
    exact owned.placed

theorem move {next : A} {item : V} {link : Option A} (owned : Owned q cells)
    (comes : q.consumer = .found next) (there : q.heap next = some ⟨some item, link⟩) :
    ∃ cells', Owned { q with
      heap := Function.update q.heap next (some ⟨none, link⟩), consumer := .moved next } cells' := by
  have held : q.held = [q.head] := by rw [LockFreeQueue.held, comes]
  obtain ⟨c, rest, rfl, -, linked⟩ := owned.linked.move comes there
  have stub : q.stub = q.head := by rw [LockFreeQueue.stub, comes]
  obtain ⟨c', rest', same, rfl, -⟩ := owned.linked.first (stub ▸ owned.linked.found next comes)
  obtain ⟨rfl, rfl⟩ := List.cons.inj same
  refine ⟨rest, linked, fun node listed => ?_, fun node content is => ?_⟩
  · by_cases same : node = c.node
    · subst same
      exact ⟨link, Function.update_self ..⟩
    · obtain rfl : node = q.head := by simpa [LockFreeQueue.held, same] using listed
      obtain ⟨link', is⟩ := owned.emptied q.head (held ▸ List.mem_cons_self)
      exact ⟨link', (Function.update_of_ne same _ _).trans is⟩
  · have before : ∃ content, q.heap node = some content := by
      by_cases same : node = c.node
      · exact ⟨_, same ▸ there⟩
      · exact ⟨content, (Function.update_of_ne same _ _).symm.trans is⟩
    obtain ⟨content', before⟩ := before
    obtain listed | has := owned.placed node content' before
    · rw [held] at listed
      exact .inl listed
    · exact .inr has

theorem delete {next : A} (owned : Owned q cells) (comes : q.consumer = .moved next) :
    Owned { q with heap := Function.update q.heap q.head none, consumer := .deleted next } cells := by
  have held : q.held = [q.head, next] := by rw [LockFreeQueue.held, comes]
  have nodup := owned.linked.nodup
  rw [held] at nodup
  obtain ⟨gone, -⟩ := List.nodup_cons.mp nodup
  refine ⟨owned.linked.delete comes, fun node listed => ?_, fun node content is => ?_⟩
  · obtain rfl : node = next := List.mem_singleton.mp listed
    obtain ⟨link, is⟩ := owned.emptied node (held ▸ List.mem_cons_of_mem _ List.mem_cons_self)
    have differs : node ≠ q.head := by
      rintro rfl
      exact gone List.mem_cons_self
    exact ⟨link, (Function.update_of_ne differs _ _).trans is⟩
  · have differs : node ≠ q.head := by
      rintro rfl
      cases (Function.update_self ..).symm.trans is
    obtain listed | has := owned.placed node content ((Function.update_of_ne differs _ _).symm.trans is)
    · rw [held] at listed
      exact .inl ((List.mem_cons.mp listed).resolve_left differs)
    · exact .inr has

variable [DecidableEq P] {p : P} {node : A} {item : V}

theorem allocate (owned : Owned q cells) (comes : q.producer p = .idle)
    (free : q.heap node = none) :
    Owned { q with
      heap := Function.update q.heap node (some ⟨some item, none⟩)
      producer := Function.update q.producer p (.allocated node item) } cells where
  linked := owned.linked.allocate comes free
  emptied other held := by
    obtain ⟨link, is⟩ := owned.emptied other held
    have differs : other ≠ node := by
      rintro rfl
      cases free.symm.trans is
    exact ⟨link, (Function.update_of_ne differs _ _).trans is⟩
  placed other content there := by
    by_cases same : other = node
    · subst same
      exact .inr ⟨p, item, Function.update_self ..⟩
    · have before := (Function.update_of_ne same _ _).symm.trans there
      refine (owned.placed other content before).imp id ?_
      rintro ⟨p', item', has⟩
      have differs : p' ≠ p := by
        rintro rfl
        cases comes.symm.trans has
      exact ⟨p', item', (Function.update_of_ne differs _ _).trans has⟩

omit [DecidableEq A] in
theorem exchange (owned : Owned q cells) (comes : q.producer p = .allocated node item) :
    Owned { q with
      tail := node
      producer := Function.update q.producer p (.linking q.tail node) }
      (cells ++ [⟨node, p, item⟩]) where
  linked := owned.linked.exchange comes
  emptied := owned.emptied
  placed other content there := by
    rw [List.map_append, ← List.append_assoc]
    obtain listed | ⟨p', item', has⟩ := owned.placed other content there
    · exact .inl (List.mem_append_left _ listed)
    · by_cases same : p' = p
      · -- the node goes from the push to the cells
        subst same
        cases comes.symm.trans has
        exact .inl (List.mem_append_right _ List.mem_cons_self)
      · exact .inr ⟨p', item', (Function.update_of_ne same _ _).trans has⟩

theorem link {prev : A} {content : Node A V} (owned : Owned q cells)
    (comes : q.producer p = .linking prev node) (there : q.heap prev = some content) :
    Owned { q with
      heap := Function.update q.heap prev (some { content with next := some node })
      producer := Function.update q.producer p .idle } cells where
  linked := owned.linked.link comes there
  emptied other held := by
    obtain ⟨next, is⟩ := owned.emptied other held
    by_cases same : other = prev
    · subst same
      cases there.symm.trans is
      exact ⟨some node, Function.update_self ..⟩
    · exact ⟨next, (Function.update_of_ne same _ _).trans is⟩
  placed other content' there' := by
    by_cases same : other = prev
    · subst same
      exact .inl (owned.linked.prev_mem comes)
    · have before := (Function.update_of_ne same _ _).symm.trans there'
      refine (owned.placed other content' before).imp id ?_
      rintro ⟨p', item', has⟩
      have differs : p' ≠ p := by
        rintro rfl
        cases comes.symm.trans has
      exact ⟨p', item', (Function.update_of_ne differs _ _).trans has⟩

theorem takes (owned : Owned q cells) (takes : Takes q q' es') : ∃ cells', Owned q' cells' := by
  cases takes with
  | allocate p item node comes free => exact ⟨cells, owned.allocate comes free⟩
  | exchange p node item comes => exact ⟨_, owned.exchange comes⟩
  | link p prev node content comes there => exact ⟨cells, owned.link comes there⟩
  | look => exact ⟨cells, owned⟩
  | find next idle found =>
    refine ⟨cells, owned.turn (owned.linked.find idle found) ?_⟩
    rw [held, held, idle]
  | move next item link comes there => exact owned.move comes there
  | delete next comes => exact ⟨cells, owned.delete comes⟩
  | advance next comes =>
    refine ⟨cells, owned.turn (owned.linked.advance comes) ?_⟩
    rw [held, held, comes]

theorem of_run {stub : A} (run : Trace.Run step Trace.free (LockFreeQueue.create stub) es q) :
    ∃ cells, Owned q cells := by
  apply run.invariant fun _ q => ∃ cells, Owned q cells
  · exact ⟨[], .create stub⟩
  · rintro _ _ _ _ _ ⟨cells, owned⟩ - steps
    exact owned.takes (step_takes steps)

end Owned

/-! ### The destructor -/

omit [DecidableEq A] in
/-- Between two calls of `pop`, what the destructor meets: the stub and the cells up to the
first one that is not linked yet. -/
theorem Linked.chain (linked : q.Linked cells) (idle : q.consumer = .idle) :
    ∃ front back, cells = front ++ back ∧
      Linked.Chain (linkIn q.heap) (some q.head) (q.head :: front.map Cell.node) ∧
      ((∀ p, q.producer p = .idle) → back = []) := by
  have stub : q.stub = q.head := by rw [LockFreeQueue.stub, idle]
  rw [← stub]
  refine exists_chain (fun node listed => ?_) linked.links linked.ends
  exact linked.allocated_of_mem ((sublist q cells).subset listed)

omit [DecidableEq A] in
/-- The values in the cells. -/
theorem Linked.values (linked : q.Linked cells) :
    (cells.map Cell.node).filterMap (fun node => (q.heap node).bind Node.value) =
      cells.map Cell.item := by
  rw [List.filterMap_map, ← List.filterMap_eq_map]
  refine List.filterMap_congr fun c there => ?_
  obtain ⟨link, carries⟩ := linked.carries c there
  rw [Function.comp_apply, carries]
  rfl

variable [DecidableEq P]

/-- Called when no `pop` is going on, the destructor returns after so many rounds as there are
nodes to meet; it deletes each of them once and touches no other. If no push is going on
either, no node is left behind, and the values pushed are those that were popped and then
those that go with the nodes. -/
theorem destructor_frees_every_node {stub : A}
    (run : Trace.Run step Trace.free (create stub : LockFreeQueue P V A) es q)
    (idle : q.consumer = .idle) :
    ∃ nodes : List A, nodes.Nodup ∧
      (∀ rounds, nodes.length ≤ rounds → q.destroy rounds =
        some (fun node => if node ∈ nodes then none else q.heap node, nodes)) ∧
      ((∀ p, q.producer p = .idle) →
        (∀ node, (if node ∈ nodes then none else q.heap node) = none) ∧
        (exchangedIn es).map Prod.snd =
          poppedIn es ++ nodes.filterMap fun node => (q.heap node).bind Node.value) := by
  obtain ⟨out, cells, fifo⟩ := Fifo.of_run run
  obtain ⟨front, back, rfl, chain, whole⟩ := fifo.linked.chain idle
  refine ⟨_, chain.nodup, fun rounds enough => deleteFrom_chain chain enough, fun quiet => ?_⟩
  obtain rfl := whole quiet
  obtain ⟨cells, owned⟩ := Owned.of_run run
  obtain ⟨front', back', rfl, chain', whole'⟩ := owned.linked.chain idle
  obtain rfl := whole' quiet
  have held : q.held = [q.head] := by rw [LockFreeQueue.held, idle]
  constructor
  · intro node
    split
    · rfl
    · rename_i other
      by_contra there
      obtain ⟨content, there⟩ := Option.ne_none_iff_exists'.mp there
      obtain listed | ⟨p, item, has⟩ := owned.placed node content there
      · rw [held, List.append_nil, List.singleton_append, ← chain.unique chain'] at listed
        exact other listed
      · cases (quiet p).symm.trans has
  · obtain ⟨link, empty⟩ := owned.emptied q.head (held ▸ List.mem_cons_self)
    have values := fifo.linked.values
    rw [List.append_nil] at values
    rw [fifo.popped, fifo.exchanged, List.map_append, List.append_nil, List.filterMap_cons_none,
      values, List.map_map]
    · rfl
    · rw [empty]
      rfl

/-- Two of three values are popped. -/
def endingRun : List (Action Bool Nat Nat) :=
  [.allocate true 7 1, .allocate false 8 2, .exchange true, .exchange false, .link false,
    .link true, .allocate true 9 3, .pop, .move, .delete, .advance, .exchange true, .link true,
    .pop, .move, .delete, .advance]

theorem destructor_frees_every_node_ending :
    ∃ (es : List (Event Bool Nat)) (q : LockFreeQueue Bool Nat Nat),
      Trace.Run step Trace.free (create 0) es q ∧ q.consumer = .idle ∧
      (∀ p, q.producer p = .idle) ∧ poppedIn es = [7, 8] ∧
      exchangedIn es = [(true, 7), (false, 8), (true, 9)] ∧
      ∃ nodes : List Nat, nodes.Nodup ∧
        (∀ rounds, nodes.length ≤ rounds → q.destroy rounds =
          some (fun node => if node ∈ nodes then none else q.heap node, nodes)) ∧
        (∀ node, (if node ∈ nodes then none else q.heap node) = none) ∧
        [7, 8, 9] = [7, 8] ++ nodes.filterMap fun node => (q.heap node).bind Node.value := by
  have run : Trace.Run step Trace.free _ ([] ++ _) _ := Trace.Run.start.exec
    (rfl : Trace.exec step (create 0) endingRun = some (_, _)) fun _ _ _ _ => trivial
  obtain ⟨nodes, nodup, frees, all⟩ := destructor_frees_every_node run rfl
  obtain ⟨gone, values⟩ := all fun p => by cases p <;> rfl
  exact ⟨_, _, run, rfl, fun p => by cases p <;> rfl, rfl, rfl, nodes, nodup, frees, gone, values⟩

end CppDB.LockFreeQueue
