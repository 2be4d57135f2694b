import CppDB.Network.Framing

/-! The limits of a connection. What it holds in memory is bounded as long as the reads of
one call are. The limit on a line is checked on the line without its carriage return, and on
the inbox with it. -/
namespace CppDB.Network

open Trace Lines

/-- The bytes a connection holds. -/
def Connection.memory (conn : Connection) : Nat :=
  conn.inbox.length + (conn.pending.map List.length).sum

/-- The successful reads since `handleReadable` was last called. -/
def callReads (es : List Event) : Nat :=
  es.foldl (fun reads e =>
    match e with
    | .called => 0
    | .read got => if got = [] then reads else reads + 1
    | _ => reads) 0

/-- No call of `handleReadable` reads more than this often. -/
def readsAtMost (limit : Nat) (es : List Event) (_ : Strand) (a : Action) : Prop :=
  ∀ got, a = .read got → callReads es < limit

/-! ### Streams -/

/-- Some line is longer than the limit, its carriage return not counted. -/
def Overlong (stream : Str) : Prop :=
  ∃ raw ∈ pieces '\n' stream, maxLineBytes < (stripReturn raw).length

/-- Some line is as long as the limit allows, and a carriage return comes on top. -/
def ReturnPastLimit (stream : Str) : Prop :=
  ∃ raw ∈ pieces '\n' stream, raw.length = maxLineBytes + 1 ∧ raw.getLast? = some '\r'

theorem length_stripReturn (raw : Str) :
    (stripReturn raw).length = if raw.getLast? = some '\r' then raw.length - 1 else raw.length := by
  rw [stripReturn]
  split
  · rw [List.length_dropLast]
  · rfl

/-- What begins a line of the stream and is over the limit is no longer a legal line, but for
its carriage return. -/
theorem overlong_of_long {stream consumed inbox : Str} (ended : Ended '\n' stream)
    (split : consumed ++ inbox <+: stream) (ends : Ended '\n' consumed) (free : '\n' ∉ inbox)
    (long : maxLineBytes < inbox.length) : Overlong stream ∨ ReturnPastLimit stream := by
  obtain ⟨more, rfl⟩ := split
  have newline : '\n' ∈ more := by
    by_contra free'
    have rest := ended.remainder
    rw [List.append_assoc, remainder_append ends,
      remainder_of_notMem (by rw [List.mem_append, not_or]; exact ⟨free, free'⟩)] at rest
    rw [(List.append_eq_nil_iff.mp rest).1] at long
    exact Nat.not_lt_zero _ long
  obtain ⟨tail, back, rfl, free'⟩ := List.eq_append_cons_of_mem newline
  have whole : '\n' ∉ inbox ++ tail := by
    rw [List.mem_append, not_or]
    exact ⟨free, free'⟩
  have line : inbox ++ tail ∈ pieces '\n' (consumed ++ inbox ++ (tail ++ '\n' :: back)) := by
    rw [List.append_assoc, ← List.append_assoc inbox, pieces_append ends, pieces_cons whole]
    exact List.mem_append_right _ List.mem_cons_self
  have size : maxLineBytes < (inbox ++ tail).length := by
    rw [List.length_append]
    omega
  by_cases exceeds : maxLineBytes < (stripReturn (inbox ++ tail)).length
  · exact .inl ⟨_, line, exceeds⟩
  · rw [length_stripReturn] at exceeds
    split_ifs at exceeds with ret
    · exact .inr ⟨_, line, by omega, ret⟩
    · exact absurd size exceeds

namespace Strand

variable {s s' : Strand} {a : Action} {es es' : List Event}

/-! ### Memory -/

/-- What the limits keep small. -/
structure Bounded (es : List Event) (s : Strand) : Prop where
  inbox : s.conn.inbox.length ≤ maxLineBytes + callReads es * bufferSize
  count : s.conn.pending.length ≤ maxPendingQueries
  size : ∀ line ∈ s.conn.pending, line.length ≤ maxLineBytes

namespace Bounded

theorem fresh : Bounded [] Strand.fresh :=
  ⟨Nat.zero_le _, Nat.zero_le _, fun _ there => absurd there List.not_mem_nil⟩

theorem keep (bounded : Bounded es s) (reads : callReads (es ++ es') = callReads es)
    (inbox : s'.conn.inbox.length ≤ s.conn.inbox.length)
    (pending : s'.conn.pending.Sublist s.conn.pending) : Bounded (es ++ es') s' where
  inbox := by
    rw [reads]
    exact inbox.trans bounded.inbox
  count := pending.length_le.trans bounded.count
  size line there := bounded.size line (pending.subset there)

theorem step (bounded : Bounded es s)
    (rests : s.loop = .waiting → s.listed = true → s.conn.inbox.length ≤ maxLineBytes)
    (takes : Takes s a s' es') : Bounded (es ++ es') s' := by
  have shrinks {raw inbox : Str} (line : takeLine s.conn.inbox = some (raw, inbox)) :
      inbox.length ≤ s.conn.inbox.length := by
    rw [(takeLine_eq_some line).2, List.length_append, List.length_cons]
    omega
  cases takes with
  | readable waits listed =>
    refine ⟨?_, bounded.count, bounded.size⟩
    exact (rests waits listed).trans (Nat.le_add_right _ _)
  | @read got reads nonempty fits =>
    refine ⟨?_, bounded.count, bounded.size⟩
    have more : callReads (es ++ [Event.read got]) = callReads es + 1 := by
      rw [callReads, List.foldl_append]
      exact if_neg (List.ne_nil_of_length_pos nonempty)
    have before := bounded.inbox
    rw [more, List.length_append, Nat.succ_mul]
    omega
  | interrupted | wouldBlock | peerClosed =>
    exact bounded.keep (by simp [callReads]) (Nat.le_refl _) (List.Sublist.refl _)
  | noNewline => exact bounded.keep (by simp [callReads]) (Nat.le_refl _) (List.Sublist.refl _)
  | blank splits line | overLimit splits line =>
    exact bounded.keep (by simp [callReads]) (shrinks line) (List.Sublist.refl _)
  | queue splits line full short room =>
    refine ⟨?_, ?_, fun line' there => ?_⟩
    · have before := bounded.inbox
      have shrinks := shrinks line
      simp only [callReads, List.foldl_append, List.foldl_cons, List.foldl_nil] at before ⊢
      omega
    · rw [List.length_append, List.length_singleton]
      exact room
    · obtain there | there := List.mem_append.mp there
      · exact bounded.size line' there
      · rw [List.mem_singleton.mp there]
        exact short
  | dispatch | dropped | start | execute | send | stall | fail =>
    exact bounded.keep (by simp [callReads]) (Nat.le_refl _) (List.Sublist.refl _)
  | drop =>
    refine bounded.keep ?_ (Nat.le_refl _) (List.Sublist.refl _)
    cases s.conn.busy <;> simp [callReads]
  | exit =>
    refine bounded.keep ?_ (Nat.le_refl _) (List.Sublist.refl _)
    cases s.conn.closed <;> simp [callReads]
  | pop is next =>
    refine bounded.keep (by simp [callReads]) (Nat.le_refl _) ?_
    rw [next]
    exact List.sublist_cons_self _ _
  | abort =>
    refine bounded.keep ?_ (Nat.le_refl _) (List.nil_sublist _)
    cases s.conn.closed <;> simp [callReads]

end Bounded

theorem callReads_of_takes (es : List Event) (takes : Takes s a s' es') :
    callReads (es ++ es') ≤ callReads es ∨
      (∃ got, a = .read got) ∧ callReads (es ++ es') ≤ callReads es + 1 := by
  cases takes with
  | @read got =>
    refine .inr ⟨⟨got, rfl⟩, ?_⟩
    simp only [callReads, List.foldl_append, List.foldl_cons, List.foldl_nil]
    split <;> omega
  | drop => cases s.conn.busy <;> exact .inl (by simp [callReads])
  | exit => cases s.conn.closed <;> exact .inl (by simp [callReads])
  | abort => cases s.conn.closed <;> exact .inl (by simp [callReads])
  | _ => exact .inl (by simp [callReads])

theorem callReads_of_run {limit : Nat} (run : Run step (readsAtMost limit) Strand.fresh es s) :
    callReads es ≤ limit := by
  refine run.invariant (fun es _ => callReads es ≤ limit) (Nat.zero_le _) ?_
  intro es es' s s' a within few takes
  obtain less | ⟨⟨got, is⟩, more⟩ := callReads_of_takes es (step_takes takes)
  · exact less.trans within
  · exact more.trans (few got is)

theorem bounded_of_run {guard : List Event → Strand → Action → Prop}
    (run : Run step guard Strand.fresh es s) : Bounded es s := by
  induction run with
  | start => exact Bounded.fresh
  | next before _ takes ih =>
    refine ih.step (fun waits listed => ?_) (step_takes takes)
    obtain ⟨consumed, frames⟩ := frames_of_run before
    exact frames.fits (by simp [intact, waits, listed]) (by simp [parsed, waits])

/-- What a connection holds is bounded by the limits and the number of reads of a call. -/
theorem memory_bounded_by_reads (limit : Nat)
    (run : Run step (readsAtMost limit) Strand.fresh es s) :
    s.conn.memory ≤ maxLineBytes + limit * bufferSize + maxPendingQueries * maxLineBytes := by
  have bounded := bounded_of_run run
  have inbox : s.conn.inbox.length ≤ maxLineBytes + limit * bufferSize :=
    bounded.inbox.trans (Nat.add_le_add_left (Nat.mul_le_mul_right _ (callReads_of_run run)) _)
  have pending : (s.conn.pending.map List.length).sum ≤ maxPendingQueries * maxLineBytes := by
    calc (s.conn.pending.map List.length).sum
        ≤ (s.conn.pending.map List.length).length * maxLineBytes := by
          refine List.sum_le_card_nsmul _ _ fun n there => ?_
          obtain ⟨line, member, rfl⟩ := List.mem_map.mp there
          exact bounded.size line member
      _ ≤ maxPendingQueries * maxLineBytes := by
          rw [List.length_map]
          exact Nat.mul_le_mul_right _ bounded.count
  rw [Connection.memory]
  omega

/-- A call reads once. -/
theorem read_once {inbox chunk : Str}
    (run : Run step (readsAtMost 1) Strand.fresh es
      ⟨⟨inbox, [], false, false⟩, true, .waiting, []⟩)
    (nonempty : 0 < chunk.length) (fits : chunk.length ≤ bufferSize) :
    ∃ es', Run step (readsAtMost 1) Strand.fresh es'
      ⟨⟨inbox ++ chunk, [], false, false⟩, true, .reading, []⟩ := by
  have begins : step ⟨⟨inbox, [], false, false⟩, true, .waiting, []⟩ .readable =
      some (⟨⟨inbox, [], false, false⟩, true, .reading, []⟩, [.called]) := rfl
  have takes : step ⟨⟨inbox, [], false, false⟩, true, .reading, []⟩ (.read chunk) =
      some (⟨⟨inbox ++ chunk, [], false, false⟩, true, .reading, []⟩, [.read chunk]) := by
    rw [step, if_pos ⟨rfl, nonempty, fits⟩]
  have called := run.next (fun _ is => by cases is) begins
  exact ⟨_, called.next (fun _ _ => by simp [callReads]) takes⟩

/-- A call that has read no end of a line, and not too much, leaves it all in the inbox. -/
theorem leave_line {text : Str} (free : '\n' ∉ text) (short : text.length ≤ maxLineBytes)
    (run : Run step (readsAtMost 1) Strand.fresh es
      ⟨⟨text, [], false, false⟩, true, .reading, []⟩) :
    ∃ es', Run step (readsAtMost 1) Strand.fresh es'
      ⟨⟨text, [], false, false⟩, true, .waiting, []⟩ := by
  have stops : step ⟨⟨text, [], false, false⟩, true, .reading, []⟩ .wouldBlock =
      some (⟨⟨text, [], false, false⟩, true, .splitting false false, []⟩, [.read []]) := rfl
  have splits : step ⟨⟨text, [], false, false⟩, true, .splitting false false, []⟩ .split =
      some (⟨⟨text, [], false, false⟩, true, .dispatching false false, []⟩, []) := by
    simp only [step, split, Connection.nextLine, takeLine_eq_none.mpr free, not_lt.mpr short,
      decide_false, Bool.or_false]
  have rests : step ⟨⟨text, [], false, false⟩, true, .dispatching false false, []⟩ .dispatch =
      some (⟨⟨text, [], false, false⟩, true, .waiting, []⟩, []) := rfl
  have unread {a : Action} (other : ∀ got, a ≠ .read got) {es s} : readsAtMost 1 es s a :=
    fun got is => absurd is (other got)
  exact ⟨_, ((run.next (unread (by simp)) stops).next (unread (by simp)) splits).next
    (unread (by simp)) rests⟩

/-- A line comes in calls that read a whole buffer each, up to the limit. -/
theorem inbox_fills (n : Nat) (fits : n * bufferSize ≤ maxLineBytes) :
    ∃ es text, Run step (readsAtMost 1) Strand.fresh es
        ⟨⟨text, [], false, false⟩, true, .waiting, []⟩ ∧
      '\n' ∉ text ∧ text.length = n * bufferSize := by
  induction n with
  | zero => exact ⟨[], [], .start, List.not_mem_nil, (Nat.zero_mul _).symm⟩
  | succ n ih =>
    rw [Nat.succ_mul] at fits ⊢
    obtain ⟨es, text, run, free, length⟩ := ih (by omega)
    let chunk : Str := List.replicate bufferSize 'a'
    have size : chunk.length = bufferSize := List.length_replicate
    have whole : (text ++ chunk).length = n * bufferSize + bufferSize := by
      rw [List.length_append, length, size]
    have free' : '\n' ∉ text ++ chunk := by
      rw [List.mem_append, not_or]
      exact ⟨free, fun there => absurd (List.eq_of_mem_replicate there) (by decide)⟩
    obtain ⟨es', reads⟩ := read_once run (by rw [size]; decide) size.le
    obtain ⟨es'', rests⟩ := leave_line free' (by rwa [whole]) reads
    exact ⟨es'', _, rests, free', whole⟩

/-- One more read on top of a line as long as the limit. -/
theorem memory_bounded_by_reads_full :
    ∃ es s, Run step (readsAtMost 1) Strand.fresh es s ∧
      s.conn.memory = maxLineBytes + 1 * bufferSize ∧
      s.conn.memory ≤ maxLineBytes + 1 * bufferSize + maxPendingQueries * maxLineBytes := by
  obtain ⟨es, text, run, -, length⟩ := inbox_fills 16 (by decide)
  let chunk : Str := List.replicate bufferSize 'a'
  have size : chunk.length = bufferSize := List.length_replicate
  obtain ⟨es', reads⟩ := read_once run (by rw [size]; decide) size.le
  refine ⟨_, _, reads, ?_, memory_bounded_by_reads 1 reads⟩
  rw [Connection.memory, List.length_append, length, size]
  rfl

/-- As long as bytes keep coming, the call keeps reading. -/
theorem inbox_grows (n : Nat) :
    ∃ es s, Run step free Strand.fresh es s ∧ s.loop = .reading ∧
      s.conn.inbox.length = n * bufferSize := by
  induction n with
  | zero =>
    have begins : step Strand.fresh .readable =
        some ({ Strand.fresh with loop := .reading }, [.called]) := rfl
    exact ⟨_, _, Run.start.next trivial begins, rfl, by simp [Strand.fresh, Connection.fresh]⟩
  | succ n ih =>
    obtain ⟨es, s, run, reads, length⟩ := ih
    let chunk : Str := List.replicate bufferSize 'a'
    have size : chunk.length = bufferSize := List.length_replicate
    have takes : s.step (.read chunk) = some
        ({ s with conn := { s.conn with inbox := s.conn.inbox ++ chunk } }, [.read chunk]) := by
      rw [step, if_pos ⟨reads, by rw [size]; decide, size.le⟩]
    refine ⟨_, _, run.next trivial takes, reads, ?_⟩
    rw [List.length_append, length, size, Nat.succ_mul]

/-- Without a bound on the reads there is none on the memory. -/
theorem memory_unbounded :
    ¬ ∃ bound, ∀ es s, Run step free Strand.fresh es s → s.conn.memory ≤ bound := by
  rintro ⟨bound, below⟩
  obtain ⟨es, s, run, -, length⟩ := inbox_grows (bound + 1)
  have memory := below es s run
  rw [Connection.memory, length, bufferSize] at memory
  omega

/-! ### Long lines -/

/-- The bytes read are those of the stream, which does not end, and the queue has room. -/
def steady (stream : Str) (es : List Event) (s : Strand) (a : Action) : Prop :=
  a ≠ .peerClosed ∧ (a = .split → s.conn.pending.length < maxPendingQueries) ∧
    ∀ got, a = .read got → received es ++ got <+: stream

/-- The stream was read to its end, or the connection was dropped on the way. -/
structure Served (stream : Str) (es : List Event) (s : Strand) : Prop where
  run : Run step (steady stream) Strand.fresh es s
  waits : s.loop = .waiting
  all : s.listed = true → received es = stream

/-- However the stream is cut into calls, the connection is dropped if and only if some line
is too long. -/
def DropsOverlong (stream : Str) : Prop :=
  ∀ es s es' s', Served stream es s → Served stream es' s' →
    s.listed = s'.listed ∧ (s.listed = false ↔ Overlong stream)

/-- Why the loop gives a connection up. -/
structure Blames (stream : Str) (es : List Event) (s : Strand) : Prop where
  part : received es <+: stream
  present : ∀ gone wakes, s.loop = .splitting gone wakes → gone = false
  blame : s.intact = false → Overlong stream ∨ ReturnPastLimit stream

namespace Blames

variable {stream consumed : Str}

theorem fresh : Blames stream [] Strand.fresh where
  part := List.nil_prefix
  present _ _ is := by cases is
  blame given := by cases given

theorem keep (blames : Blames stream es s) (unread : received es' = [])
    (present : ∀ gone wakes, s'.loop = .splitting gone wakes → gone = false)
    (intact : s'.intact = false → s.intact = false) : Blames stream (es ++ es') s' where
  part := by rw [received_append, unread, List.append_nil]; exact blames.part
  present := present
  blame given := blames.blame (intact given)

/-- The line just split off is one of the stream. -/
theorem line_mem (blames : Blames stream es s) (frames : Frames es s consumed) {raw inbox : Str}
    (line : takeLine s.conn.inbox = some (raw, inbox)) : raw ∈ pieces '\n' stream := by
  obtain ⟨free, split⟩ := takeLine_eq_some line
  obtain ⟨more, rfl⟩ := blames.part
  rw [frames.received, split, List.append_assoc, List.append_assoc, List.cons_append,
    pieces_append frames.ended, pieces_cons free]
  exact List.mem_append_right _ List.mem_cons_self

theorem step (blames : Blames stream es s) (frames : Frames es s consumed) (kept : s.Kept)
    (ended : Ended '\n' stream) (meets : steady stream es s a) (takes : Takes s a s' es') :
    Blames stream (es ++ es') s' := by
  obtain ⟨stays, roomy, reads⟩ := meets
  have present := blames.present
  cases takes with
  | readable waits =>
    refine blames.keep rfl (fun _ _ is => by cases is) fun given => ?_
    simpa [intact, waits] using given
  | @read got =>
    refine ⟨?_, present, blames.blame⟩
    rw [received_append]
    simpa [received] using reads got rfl
  | interrupted => exact blames.keep rfl present id
  | wouldBlock reading =>
    refine blames.keep rfl (fun _ _ is => by cases is; rfl) fun given => ?_
    simpa [intact, reading] using given
  | peerClosed => exact absurd rfl stays
  | noNewline splits last =>
    refine ⟨by simpa using blames.part, fun _ _ is => (by cases is), fun given => ?_⟩
    have long : maxLineBytes < s.conn.inbox.length := by
      have listed := kept.busy (by rw [splits]; simp)
      simpa [intact, listed, present _ _ splits] using given
    have part := blames.part
    rw [frames.received] at part
    exact overlong_of_long ended part frames.ended (takeLine_eq_none.mp last) long
  | blank => exact blames.keep rfl present id
  | overLimit splits line full exceeds =>
    refine ⟨by simpa using blames.part, fun _ _ is => (by cases is), fun _ => .inl ?_⟩
    obtain long | crowded := exceeds
    · exact ⟨_, blames.line_mem frames line, long⟩
    · exact absurd (roomy rfl) (not_lt.mpr crowded)
  | queue splits =>
    refine blames.keep rfl (fun _ _ is => ?_) fun given => ?_
    · cases is
      exact present _ _ splits
    · simpa [intact, splits] using given
  | @dispatch wakes gone dispatches =>
    refine blames.keep rfl (fun _ _ is => ?_) fun given => ?_
    · cases gone <;> cases is
    · cases gone <;> simp_all [intact]
  | drop drops =>
    refine blames.keep ?_ (fun _ _ is => by cases is) fun _ => by simp [intact, drops]
    cases s.conn.busy <;> rfl
  | dropped drops =>
    exact blames.keep rfl (fun _ _ is => by cases is) fun _ => by simp [intact, drops]
  | exit | abort =>
    refine blames.keep ?_ present id
    cases s.conn.closed <;> rfl
  | start | pop | execute | send | stall | fail => exact blames.keep rfl present id

end Blames

theorem blames_of_run {stream : Str} (ended : Ended '\n' stream)
    (run : Run step (steady stream) Strand.fresh es s) : Blames stream es s := by
  induction run with
  | start => exact Blames.fresh
  | next before meets takes ih =>
    obtain ⟨consumed, frames⟩ := frames_of_run before
    exact ih.step frames (kept_of_run before) ended meets (step_takes takes)

/-- A connection that was dropped had a reason, and one that was not had only short lines. -/
theorem Served.cause {stream : Str} (ended : Ended '\n' stream) (served : Served stream es s) :
    (s.listed = false → Overlong stream ∨ ReturnPastLimit stream) ∧
      (s.listed = true → ¬ Overlong stream) := by
  constructor
  · intro dropped
    exact (blames_of_run ended served.run).blame (by simp [intact, dropped])
  · rintro listed ⟨raw, there, long⟩
    obtain ⟨consumed, frames⟩ := frames_of_run served.run
    have intact : s.intact = true := by simp [intact, served.waits, listed]
    have free := frames.empty intact (by simp [parsed, served.waits])
    rw [← served.all listed, frames.received, pieces_append frames.ended, pieces_of_notMem free,
      List.append_nil] at there
    exact absurd (frames.short intact raw there) (not_le.mpr long)

section Cuts

variable {stream : Str}

/-- An action that neither reads nor splits. -/
theorem steady_of_ne (stays : a ≠ .peerClosed) (unsplit : a ≠ .split)
    (unread : ∀ got, a ≠ .read got) : steady stream es s a :=
  ⟨stays, fun is => absurd is unsplit, fun got is => absurd is (unread got)⟩

/-- A call reads a text with as many reads as it takes. -/
theorem read_all (run : Run step (steady stream) Strand.fresh es s) (reads : s.loop = .reading)
    (text : Str) (fits : received es ++ text <+: stream) :
    ∃ es', Run step (steady stream) Strand.fresh es'
        { s with conn := { s.conn with inbox := s.conn.inbox ++ text } } ∧
      received es' = received es ++ text := by
  induction length : text.length using Nat.strong_induction_on generalizing text es s with
  | _ n ih =>
    by_cases done : text = []
    · subst done
      refine ⟨es, ?_, (List.append_nil _).symm⟩
      rwa [List.append_nil]
    · let chunk := text.take bufferSize
      have size : chunk.length = min bufferSize text.length := List.length_take
      have positive := List.length_pos_of_ne_nil done
      have room : 0 < bufferSize := by decide
      have takes : s.step (.read chunk) = some
          ({ s with conn := { s.conn with inbox := s.conn.inbox ++ chunk } }, [.read chunk]) := by
        rw [step, if_pos ⟨reads, by omega, by omega⟩]
      have rest : chunk ++ text.drop bufferSize = text := List.take_append_drop ..
      have meets : steady stream es s (.read chunk) := by
        refine ⟨by simp, by simp, ?_⟩
        rintro _ ⟨⟩
        refine List.IsPrefix.trans ?_ fits
        rw [← rest, ← List.append_assoc]
        exact List.prefix_append _ _
      have got : received (es ++ [Event.read chunk]) = received es ++ chunk := by simp [received]
      obtain ⟨es', run', got'⟩ := ih (text.drop bufferSize).length
        (by rw [List.length_drop]; omega) (run.next meets takes) reads (text.drop bufferSize)
        (by rwa [got, List.append_assoc, rest]) rfl
      refine ⟨es', ?_, by rw [got', got, List.append_assoc, rest]⟩
      simpa only [List.append_assoc, rest] using run'

/-- A call that finds a text on a connection at rest. -/
theorem call (run : Run step (steady stream) Strand.fresh es Strand.fresh) (text : Str)
    (fits : received es ++ text <+: stream) :
    ∃ es', Run step (steady stream) Strand.fresh es'
        ⟨⟨text, [], false, false⟩, true, .splitting false false, []⟩ ∧
      received es' = received es ++ text := by
  have begins : step Strand.fresh .readable =
      some ({ Strand.fresh with loop := .reading }, [.called]) := rfl
  have called := run.next (steady_of_ne (by simp) (by simp) (by simp)) begins
  have same : received (es ++ [Event.called]) = received es := by simp [received]
  obtain ⟨es', reads, got⟩ := read_all called rfl text (by rwa [same])
  have stops : step ⟨⟨[] ++ text, [], false, false⟩, true, .reading, []⟩ .wouldBlock =
      some (⟨⟨text, [], false, false⟩, true, .splitting false false, []⟩, [.read []]) := rfl
  refine ⟨_, reads.next (steady_of_ne (by simp) (by simp) (by simp)) stops, ?_⟩
  rw [received_append, got, same]
  simp [received]

/-- A line that comes in a call of its own is served, and the connection is at rest again. -/
theorem serve_line {raw : Str} (run : Run step (steady stream) Strand.fresh es Strand.fresh)
    (free : '\n' ∉ raw) (short : (stripReturn raw).length ≤ maxLineBytes)
    (fits : received es ++ (raw ++ ['\n']) <+: stream) :
    ∃ es', Run step (steady stream) Strand.fresh es' Strand.fresh ∧
      received es' = received es ++ (raw ++ ['\n']) := by
  obtain ⟨es₁, called, got⟩ := call run (raw ++ ['\n']) fits
  have roomy {es s} (few : s.conn.pending.length ≤ 1) : steady stream es s .split :=
    ⟨by simp, fun _ => few.trans_lt (by decide), by simp⟩
  have line : takeLine (raw ++ ['\n']) = some (raw, []) := takeLine_append free
  by_cases empty : stripReturn raw = []
  · have skips : step ⟨⟨raw ++ ['\n'], [], false, false⟩, true, .splitting false false, []⟩ .split =
        some (⟨⟨[], [], false, false⟩, true, .splitting false false, []⟩, []) := by
      simp [step, split, Connection.nextLine, line, empty]
    have ends : step ⟨⟨[], [], false, false⟩, true, .splitting false false, []⟩ .split =
        some (⟨⟨[], [], false, false⟩, true, .dispatching false false, []⟩, []) := rfl
    have rests : step ⟨⟨[], [], false, false⟩, true, .dispatching false false, []⟩ .dispatch =
        some (Strand.fresh, []) := rfl
    have skipped := called.next (roomy (Nat.zero_le _)) skips
    have ended := skipped.next (roomy (Nat.zero_le _)) ends
    refine ⟨_, ended.next (steady_of_ne (by simp) (by simp) (by simp)) rests, ?_⟩
    rw [List.append_nil, List.append_nil, List.append_nil, got]
  · have queues : step ⟨⟨raw ++ ['\n'], [], false, false⟩, true, .splitting false false, []⟩ .split =
        some (⟨⟨[], [stripReturn raw], true, false⟩, true, .splitting false true, []⟩,
          [.queued (stripReturn raw)]) := by
      simp [step, split, Connection.nextLine, line, empty, not_lt.mpr short, maxPendingQueries]
    have ends : step ⟨⟨[], [stripReturn raw], true, false⟩, true, .splitting false true, []⟩ .split =
        some (⟨⟨[], [stripReturn raw], true, false⟩, true, .dispatching true false, []⟩, []) := rfl
    -- a worker executes the query and sends an empty reply
    have works : exec step ⟨⟨[], [stripReturn raw], true, false⟩, true, .dispatching true false, []⟩
        [.dispatch, .work 0 .start, .work 0 .drain, .work 0 (.execute []), .work 0 (.send 1),
          .work 0 .drain] =
        some (Strand.fresh, [.executed (stripReturn raw) [], .send ['\n']]) := rfl
    have queued := called.next (roomy (Nat.zero_le _)) queues
    have ended := queued.next (roomy (Nat.le_refl _)) ends
    refine ⟨_, ended.exec works (by simp [steady]), ?_⟩
    have unread : received [.queued (stripReturn raw)] = [] := rfl
    have unread' : received [.executed (stripReturn raw) [], .send ['\n']] = [] := rfl
    rw [List.append_nil, received_append, received_append, unread, unread', List.append_nil,
      List.append_nil, got]

theorem serve_lines (raws : List Str) (run : Run step (steady stream) Strand.fresh es Strand.fresh)
    (free : ∀ raw ∈ raws, '\n' ∉ raw)
    (short : ∀ raw ∈ raws, (stripReturn raw).length ≤ maxLineBytes)
    (fits : received es ++ raws.flatMap (· ++ ['\n']) <+: stream) :
    ∃ es', Run step (steady stream) Strand.fresh es' Strand.fresh ∧
      received es' = received es ++ raws.flatMap (· ++ ['\n']) := by
  induction raws generalizing es with
  | nil => exact ⟨es, run, (List.append_nil _).symm⟩
  | cons raw raws ih =>
    rw [List.flatMap_cons, ← List.append_assoc] at fits
    obtain ⟨es₁, run₁, got₁⟩ := serve_line run (free raw List.mem_cons_self)
      (short raw List.mem_cons_self) ((List.prefix_append _ _).trans fits)
    obtain ⟨es₂, run₂, got₂⟩ := ih run₁ (fun raw there => free raw (List.mem_cons_of_mem _ there))
      (fun raw there => short raw (List.mem_cons_of_mem _ there)) (by rwa [got₁])
    refine ⟨es₂, run₂, ?_⟩
    rw [got₂, got₁, List.flatMap_cons, List.append_assoc]

/-- Cut between its carriage return and its newline, a line of the greatest length allowed
drops the connection. -/
theorem dropped_of_returnPastLimit (ended : Ended '\n' stream) (short : ¬ Overlong stream)
    (past : ReturnPastLimit stream) : ∃ es s, Served stream es s ∧ s.listed = false := by
  obtain ⟨raw, there, length, -⟩ := past
  obtain ⟨front, back, split⟩ := List.append_of_mem there
  have whole := flatten_pieces '\n' stream
  rw [ended.remainder, List.append_nil, split, List.flatMap_append, List.flatMap_cons] at whole
  have free {line} (there : line ∈ front ++ raw :: back) : '\n' ∉ line :=
    notMem_of_mem_pieces (by rw [split]; exact there)
  have fine {line} (there : line ∈ front) : (stripReturn line).length ≤ maxLineBytes := by
    by_contra long
    exact short ⟨line, by rw [split]; exact List.mem_append_left _ there, not_le.mp long⟩
  have first : Run step (steady stream) Strand.fresh [] Strand.fresh := .start
  obtain ⟨es₁, served, got₁⟩ := serve_lines front first
    (fun _ there => free (List.mem_append_left _ there)) (fun _ there => fine there)
    (by rw [← whole]; exact List.prefix_append _ _)
  have got₁ : received es₁ = front.flatMap (· ++ ['\n']) := got₁
  obtain ⟨es₂, called, got₂⟩ := call served raw (by
    rw [got₁, ← whole, List.append_assoc, ← List.append_assoc]
    exact List.prefix_append _ _)
  have last : takeLine raw = none :=
    takeLine_eq_none.mpr (free (List.mem_append_right _ List.mem_cons_self))
  have long : maxLineBytes < raw.length := by omega
  have gives : step ⟨⟨raw, [], false, false⟩, true, .splitting false false, []⟩ .split =
      some (⟨⟨raw, [], false, false⟩, true, .dispatching false true, []⟩, []) := by
    simp [step, Strand.split, Connection.nextLine, last, long]
  have drops : exec step ⟨⟨raw, [], false, false⟩, true, .dispatching false true, []⟩
      [.dispatch, .drop] = some (⟨⟨raw, [], false, true⟩, false, .waiting, []⟩, [.closed]) := rfl
  have given := called.next ⟨by simp, fun _ => by simp [maxPendingQueries], by simp⟩ gives
  have dropped := given.exec drops (by simp [steady])
  exact ⟨_, _, ⟨dropped, rfl, fun listed => absurd listed Bool.false_ne_true⟩, rfl⟩

end Cuts

/-- The limit on lines does not depend on how the stream is cut into calls exactly if some
line is over it, or none is followed by a carriage return at the limit. -/
theorem limit_ignores_segmentation (stream : Str) (ended : Ended '\n' stream) :
    DropsOverlong stream ↔ Overlong stream ∨ ¬ ReturnPastLimit stream := by
  constructor
  · intro agree
    by_contra neither
    rw [not_or, not_not] at neither
    obtain ⟨es, s, served, dropped⟩ := dropped_of_returnPastLimit ended neither.1 neither.2
    exact neither.1 ((agree es s es s served served).2.mp dropped)
  · intro fine es s es' s' served served'
    have exactly {es s} (served : Served stream es s) : s.listed = false ↔ Overlong stream := by
      obtain ⟨reason, listed⟩ := served.cause ended
      constructor
      · intro dropped
        obtain long | past := reason dropped
        · exact long
        · exact fine.resolve_right (not_not.mpr past)
      · intro long
        by_contra kept
        exact listed (Bool.eq_true_of_not_eq_false kept) long
    refine ⟨?_, exactly served⟩
    have agree := (exactly served).trans (exactly served').symm
    cases listed : s.listed <;> cases listed' : s'.listed <;> simp_all

/-- The longest line allowed, without a carriage return: no cut of it drops the connection. -/
theorem limit_ignores_segmentation_longest :
    ¬ Overlong (List.replicate maxLineBytes 'a' ++ ['\n']) ∧
      DropsOverlong (List.replicate maxLineBytes 'a' ++ ['\n']) := by
  have ended : Ended '\n' (List.replicate maxLineBytes 'a' ++ ['\n']) := .inr ⟨_, rfl⟩
  have free : '\n' ∉ List.replicate maxLineBytes 'a' := by simp
  have only : pieces '\n' (List.replicate maxLineBytes 'a' ++ ['\n']) =
      [List.replicate maxLineBytes 'a'] := by
    rw [pieces_cons free, pieces_of_notMem List.not_mem_nil]
  constructor
  · rintro ⟨raw, there, long⟩
    rw [only, List.mem_singleton] at there
    rw [there, length_stripReturn, List.length_replicate] at long
    split at long <;> omega
  · refine (limit_ignores_segmentation _ ended).mpr (.inr ?_)
    rintro ⟨raw, there, length, -⟩
    rw [only, List.mem_singleton] at there
    rw [there, List.length_replicate] at length
    omega

/-- The longest line allowed, with its carriage return. -/
def longestLine : Str := List.replicate maxLineBytes 'a' ++ ['\r']

/-- It is not over the limit, but there is a cut for which the connection is dropped. -/
theorem limit_depends_on_segmentation :
    Ended '\n' (longestLine ++ ['\n']) ∧ ¬ DropsOverlong (longestLine ++ ['\n']) := by
  have ended : Ended '\n' (longestLine ++ ['\n']) := .inr ⟨longestLine, rfl⟩
  have free : '\n' ∉ longestLine := by
    simp [longestLine]
  have only : pieces '\n' (longestLine ++ ['\n']) = [longestLine] := by
    rw [pieces_cons free, pieces_of_notMem List.not_mem_nil]
  have short : ¬ Overlong (longestLine ++ ['\n']) := by
    rintro ⟨raw, there, long⟩
    rw [only, List.mem_singleton] at there
    rw [there, length_stripReturn] at long
    simp [longestLine] at long
  have past : ReturnPastLimit (longestLine ++ ['\n']) :=
    ⟨longestLine, by rw [only]; exact List.mem_singleton_self _, by simp [longestLine]⟩
  refine ⟨ended, fun agree => ?_⟩
  obtain ⟨es, s, served, dropped⟩ := dropped_of_returnPastLimit ended short past
  exact short ((agree es s es s served served).2.mp dropped)

end Strand

end CppDB.Network
