import CppDB.Lib.Lines
import CppDB.Network.Connection

/-! How the bytes a connection receives become queries. However the stream is cut into
reads and calls, the lines queued are those of the stream, in order. -/
namespace CppDB.Network

open Trace Lines

variable {raw inbox text rest : Str}

theorem takeLine_eq_none : takeLine text = none ↔ '\n' ∉ text := by
  induction text with
  | nil => simp [takeLine]
  | cons c text ih =>
    by_cases newline : c = '\n'
    · simp [takeLine, newline]
    · simp [takeLine, newline, ih, Ne.symm newline]

theorem takeLine_eq_some (taken : takeLine text = some (raw, rest)) :
    '\n' ∉ raw ∧ text = raw ++ '\n' :: rest := by
  induction text generalizing raw with
  | nil => cases taken
  | cons c text ih =>
    by_cases newline : c = '\n'
    · rw [takeLine, if_pos newline] at taken
      cases taken
      exact ⟨List.not_mem_nil, by rw [newline]; rfl⟩
    · rw [takeLine, if_neg newline, Option.map_eq_some_iff] at taken
      obtain ⟨⟨line, rest'⟩, taken, same⟩ := taken
      cases same
      obtain ⟨free, rfl⟩ := ih taken
      refine ⟨?_, rfl⟩
      rw [List.mem_cons, not_or]
      exact ⟨Ne.symm newline, free⟩

theorem takeLine_append (free : '\n' ∉ raw) : takeLine (raw ++ '\n' :: rest) = some (raw, rest) := by
  induction raw with
  | nil => simp [takeLine]
  | cons c raw ih =>
    rw [List.mem_cons, not_or] at free
    rw [List.cons_append, takeLine, if_neg (Ne.symm free.1), ih free.2]
    rfl

/-- The queries in a stream: the pieces newlines end, each without one trailing carriage
return, but no empty ones. -/
def framed (stream : Str) : List Str :=
  ((pieces '\n' stream).map stripReturn).filter (· ≠ [])

theorem framed_append {front : Str} (ended : Ended '\n' front) (back : Str) :
    framed (front ++ back) = framed front ++ framed back := by
  rw [framed, pieces_append ended, List.map_append, List.filter_append]
  rfl

theorem framed_line (free : '\n' ∉ raw) :
    framed (raw ++ ['\n']) = if stripReturn raw = [] then [] else [stripReturn raw] := by
  rw [framed, pieces_cons free, pieces_of_notMem List.not_mem_nil]
  by_cases empty : stripReturn raw = []
  · simp [empty]
  · simp [empty]

theorem framed_of_notMem (free : '\n' ∉ text) : framed text = [] := by
  rw [framed, pieces_of_notMem free]
  rfl

namespace Strand

variable {s s' : Strand} {a : Action} {es es' : List Event}

/-- The loop works on a connection only while it is listed, and closes it with taking it off
the list. -/
structure Kept (s : Strand) : Prop where
  listed : s.listed = !s.conn.closed
  waits : s.listed = false → s.loop = .waiting

namespace Kept

theorem fresh : Strand.fresh.Kept := ⟨rfl, fun _ => rfl⟩

theorem busy (kept : s.Kept) (working : s.loop ≠ .waiting) : s.listed = true := by
  cases listed : s.listed with
  | true => rfl
  | false => exact absurd (kept.waits listed) working

/-- Steps of the loop on the way do not change the list. -/
theorem move (kept : s.Kept) (working : s.loop ≠ .waiting) (listed : s'.listed = s.listed)
    (closed : s'.conn.closed = s.conn.closed) : s'.Kept := by
  refine ⟨by rw [listed, closed]; exact kept.listed, fun gone => ?_⟩
  rw [listed, kept.busy working] at gone
  cases gone

theorem step (kept : s.Kept) (takes : Takes s a s' es') : s'.Kept := by
  cases takes with
  | readable waits listed =>
    refine ⟨kept.listed, fun gone => ?_⟩
    rw [listed] at gone
    cases gone
  | read reads | interrupted reads | wouldBlock reads | peerClosed reads =>
    exact kept.move (by rw [reads]; simp) rfl rfl
  | noNewline splits | blank splits | overLimit splits | queue splits =>
    exact kept.move (by rw [splits]; simp) rfl rfl
  | dispatch dispatches => exact kept.move (by rw [dispatches]; simp) rfl rfl
  | drop => exact ⟨rfl, fun _ => rfl⟩
  | dropped drops => exact ⟨kept.listed, fun _ => rfl⟩
  | start | exit | pop | execute | send | stall | fail | abort => exact ⟨kept.listed, kept.waits⟩

end Kept

/-- No limit was hit: the connection is listed, and the loop is not about to drop it. -/
def intact (s : Strand) : Bool :=
  s.listed && match s.loop with
    | .dispatching _ dropping => !dropping
    | .dropping => false
    | _ => true

/-- Between the end of the splitting loop and the next call. -/
def parsed (s : Strand) : Bool :=
  match s.loop with
  | .waiting | .dispatching _ _ => true
  | _ => false

/-- The bytes received are those the loop has split into lines, and the inbox. -/
structure Frames (es : List Event) (s : Strand) (consumed : Str) : Prop where
  ended : Ended '\n' consumed
  received : received es = consumed ++ s.conn.inbox
  queued : lines es <+: framed consumed
  whole : s.intact = true → lines es = framed consumed
  short : s.intact = true → ∀ raw ∈ pieces '\n' consumed, (stripReturn raw).length ≤ maxLineBytes
  empty : s.intact = true → s.parsed = true → '\n' ∉ s.conn.inbox
  fits : s.intact = true → s.parsed = true → s.conn.inbox.length ≤ maxLineBytes

namespace Frames

variable {consumed : Str}

theorem fresh : Frames [] Strand.fresh [] where
  ended := .inl rfl
  received := rfl
  queued := List.nil_prefix
  whole _ := rfl
  short _ _ there := absurd there List.not_mem_nil
  empty _ _ := List.not_mem_nil
  fits _ _ := Nat.zero_le _

/-- A step that reads, splits and queues nothing. -/
theorem keep (frames : Frames es s consumed) (inbox : s'.conn.inbox = s.conn.inbox)
    (intact : s'.intact = true → s.intact = true)
    (parsed : s'.intact = true → s'.parsed = true → s.parsed = true)
    (unread : Network.received es' = []) (unqueued : lines es' = []) :
    Frames (es ++ es') s' consumed where
  ended := frames.ended
  received := by rw [received_append, unread, List.append_nil, inbox, frames.received]
  queued := by rw [lines_append, unqueued, List.append_nil]; exact frames.queued
  whole still := by rw [lines_append, unqueued, List.append_nil, frames.whole (intact still)]
  short still := frames.short (intact still)
  empty still done := by rw [inbox]; exact frames.empty (intact still) (parsed still done)
  fits still done := by rw [inbox]; exact frames.fits (intact still) (parsed still done)

/-- A turn of the splitting loop moves one line over, and the loop goes on or gives up. -/
theorem cut (frames : Frames es s consumed) (working : s.intact = true)
    (line : takeLine s.conn.inbox = some (raw, inbox)) (moved : s'.conn.inbox = inbox)
    (unread : Network.received es' = []) (queued : lines es' <+: framed (raw ++ ['\n']))
    (whole : s'.intact = true → lines es' = framed (raw ++ ['\n']) ∧ s'.parsed = false ∧
      (stripReturn raw).length ≤ maxLineBytes) :
    Frames (es ++ es') s' (consumed ++ (raw ++ ['\n'])) := by
  obtain ⟨free, split⟩ := takeLine_eq_some line
  have before := frames.whole working
  refine ⟨.snoc _ _, ?_, ?_, fun still => ?_, fun still line there => ?_, fun still done => ?_,
    fun still done => ?_⟩
  · rw [received_append, unread, List.append_nil, frames.received, split, moved]
    simp
  · rw [lines_append, framed_append frames.ended, before]
    exact (List.prefix_append_right_inj _).mpr queued
  · rw [lines_append, framed_append frames.ended, before, (whole still).1]
  · rw [pieces_append frames.ended, pieces_cons free, pieces_of_notMem List.not_mem_nil,
      List.mem_append, List.mem_singleton] at there
    obtain there | rfl := there
    · exact frames.short working line there
    · exact (whole still).2.2
  · rw [(whole still).2.1] at done
    cases done
  · rw [(whole still).2.1] at done
    cases done

theorem read (frames : Frames es s consumed) (reads : s.loop = .reading) (got : Str) :
    Frames (es ++ [Event.read got]) { s with conn := { s.conn with inbox := s.conn.inbox ++ got } }
      consumed where
  ended := frames.ended
  received := by
    rw [received_append, frames.received, List.append_assoc]
    simp [Network.received]
  queued := by simpa [lines] using frames.queued
  whole still := by simpa [lines] using frames.whole still
  short still := frames.short still
  empty _ done := by simp [parsed, reads] at done
  fits _ done := by simp [parsed, reads] at done

theorem step (frames : Frames es s consumed) (kept : s.Kept) (takes : Takes s a s' es') :
    ∃ consumed', Frames (es ++ es') s' consumed' := by
  have working {gone wakes} (splits : s.loop = .splitting gone wakes) : s.intact = true := by
    simp [intact, splits, kept.busy]
  cases takes with
  | readable waits =>
    refine ⟨consumed, frames.keep rfl (fun still => ?_) (fun _ done => by cases done) rfl rfl⟩
    simpa [intact, waits] using still
  | read reads => exact ⟨consumed, frames.read reads _⟩
  | interrupted => exact ⟨consumed, frames.keep rfl id (fun _ => id) rfl rfl⟩
  | wouldBlock reads | peerClosed reads =>
    refine ⟨consumed, frames.keep rfl (fun still => ?_) (fun _ done => by cases done) rfl rfl⟩
    simpa [intact, reads] using still
  | noNewline splits last =>
    have before := frames.whole (working splits)
    refine ⟨consumed, frames.ended, ?_, ?_, fun _ => ?_, fun _ => frames.short (working splits),
      fun _ _ => takeLine_eq_none.mp last, fun still _ => ?_⟩
    · simpa using frames.received
    · simpa using frames.queued
    · simpa using before
    · simp only [intact, Bool.and_eq_true, Bool.not_eq_true', Bool.or_eq_false_iff,
        decide_eq_false_iff_not, not_lt] at still
      exact still.2.2
  | @blank gone wakes raw inbox splits line empty =>
    have framed_nil : lines [] = framed (raw ++ ['\n']) := by
      rw [framed_line (takeLine_eq_some line).1, if_pos empty]
      rfl
    refine ⟨_, frames.cut (working splits) line rfl rfl List.nil_prefix fun _ =>
      ⟨framed_nil, ?_, ?_⟩⟩
    · simp [parsed, splits]
    · simp [empty]
  | overLimit splits line =>
    refine ⟨_, frames.cut (working splits) line rfl rfl List.nil_prefix fun still => ?_⟩
    simp [intact] at still
  | @queue gone wakes raw inbox splits line full short =>
    have queued : lines [.queued (stripReturn raw)] = framed (raw ++ ['\n']) := by
      rw [framed_line (takeLine_eq_some line).1, if_neg full]
      rfl
    exact ⟨_, frames.cut (working splits) line rfl rfl (queued ▸ List.prefix_rfl) fun _ =>
      ⟨queued, rfl, short⟩⟩
  | @dispatch wakes gone dispatches =>
    refine ⟨consumed, frames.keep rfl (fun still => ?_) (fun _ _ => ?_) rfl rfl⟩
    · cases gone <;> simp_all [intact]
    · simp [parsed, dispatches]
  | drop =>
    refine ⟨consumed, frames.keep rfl (fun still => ?_) (fun still => ?_) ?_ ?_⟩
    · simp [intact] at still
    · simp [intact] at still
    · cases s.conn.busy <;> rfl
    · cases s.conn.busy <;> rfl
  | dropped drops unlisted =>
    refine ⟨consumed, frames.keep rfl (fun still => ?_) (fun still => ?_) rfl rfl⟩
    · simp [intact, unlisted] at still
    · simp [intact, unlisted] at still
  | exit | abort =>
    refine ⟨consumed, frames.keep rfl id (fun _ => id) ?_ ?_⟩
    · cases s.conn.closed <;> rfl
    · cases s.conn.closed <;> rfl
  | start | pop | execute | send | stall | fail =>
    exact ⟨consumed, frames.keep rfl id (fun _ => id) rfl rfl⟩

end Frames

theorem kept_of_run {guard : List Event → Strand → Action → Prop}
    (run : Run step guard Strand.fresh es s) : s.Kept :=
  run.invariant (fun _ s => s.Kept) Kept.fresh fun kept _ takes => kept.step (step_takes takes)

theorem frames_of_run {guard : List Event → Strand → Action → Prop}
    (run : Run step guard Strand.fresh es s) : ∃ consumed, Frames es s consumed := by
  induction run with
  | start => exact ⟨[], Frames.fresh⟩
  | next before _ takes ih =>
    obtain ⟨consumed, frames⟩ := ih
    exact frames.step (kept_of_run before) (step_takes takes)

/-- The lines queued are always the first ones of the stream. -/
theorem lines_prefix_of_run {guard : List Event → Strand → Action → Prop}
    (run : Run step guard Strand.fresh es s) : lines es <+: framed (received es) := by
  obtain ⟨consumed, frames⟩ := frames_of_run run
  rw [frames.received, framed_append frames.ended]
  exact frames.queued.trans (List.prefix_append _ _)

/-- Between two calls on a connection that was not dropped, exactly the lines of all bytes
received so far are queued, and the inbox is what is behind the last newline. -/
theorem framing_ignores_segmentation (run : Run step free Strand.fresh es s)
    (waits : s.loop = .waiting) (listed : s.listed = true) :
    lines es = framed (received es) ∧ s.conn.inbox = remainder '\n' (received es) := by
  obtain ⟨consumed, frames⟩ := frames_of_run run
  have intact : s.intact = true := by simp [intact, waits, listed]
  have free := frames.empty intact (by simp [parsed, waits])
  rw [frames.received]
  constructor
  · rw [framed_append frames.ended, framed_of_notMem free, List.append_nil, frames.whole intact]
  · rw [remainder_append frames.ended, remainder_of_notMem free]

/-- A carriage return and its newline come in different calls. -/
theorem framing_ignores_segmentation_cut_return :
    ∃ es s, Run step free Strand.fresh es s ∧ s.loop = .waiting ∧ s.listed = true ∧
      received es = "DROP TABLE t\r\n\nSEL".toList ∧
      lines es = framed (received es) ∧ s.conn.inbox = remainder '\n' (received es) := by
  have execs : exec step Strand.fresh [.readable, .read "DROP TABLE t\r".toList, .wouldBlock, .split,
      .dispatch, .readable, .read "\n\nSEL".toList, .interrupted, .wouldBlock, .split, .split, .split,
      .dispatch] = some (⟨⟨"SEL".toList, ["DROP TABLE t".toList], true, false⟩, true, .waiting,
        [.submitted]⟩, [.called, .read "DROP TABLE t\r".toList, .read [], .called,
          .read "\n\nSEL".toList, .read [], .read [], .queued "DROP TABLE t".toList]) := by
    decide +kernel
  have run := Run.start.exec execs fun _ _ _ _ => trivial
  exact ⟨_, _, run, rfl, rfl, by decide, framing_ignores_segmentation run rfl rfl⟩

end Strand
end CppDB.Network
