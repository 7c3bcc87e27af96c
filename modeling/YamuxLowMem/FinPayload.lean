/-
YamuxLowMem/FinPayload.lean

Payload is read before the end, unless the end is marked ahead of it.

A head looks at the flags of a data frame when the header arrives, so the mark
for its `FIN` or `RST` goes down to the handle ahead of the payload; and where
the local half is closed by then, a poll between the header and the payload
finds the stream over, and the session removes the head.  An empty data frame
is a mark too, whatever comes after it, and an opened stream may be found over
before the peer has answered.  Where no step does any of this, a read reports
the end only after every byte that arrived, and none is lost.
-/
import YamuxLowMem.EndOfFile
import YamuxLowMem.RemoteClosing
import YamuxLowMem.Tended

namespace YamuxLowMem

open Async Relation

/-! ### What may arrive -/

/-- How far the frames that arrive for a stream have come: the payload still
due, and whether the peer has finished. -/
structure Incoming where
  due : Option Nat
  finished : Bool
  deriving DecidableEq, Repr

/-- The next event, if it may come now: a header or a window update between
payloads, with no payload announced after `FIN` or `RST`; or a chunk of the
payload that is due, an empty one only for an empty payload. -/
def Incoming.next (s : Incoming) : FrameStreamEvent → Option Incoming
  | .data flags size =>
      if s.due = none ∧ (s.finished = true → size = 0) then
        some { due := some size.toNat, finished := s.finished || (flags.fin || flags.rst) }
      else none
  | .dataChunk chunk =>
      match s.due with
      | some due =>
          if chunk.length ≤ due ∧ (chunk = [] → due = 0) then
            some { s with
              due := if due - chunk.length = 0 then none else some (due - chunk.length) }
          else none
      | none => none
  | .windowUpdate flags _ =>
      if s.due = none then some { s with finished := s.finished || (flags.fin || flags.rst) }
      else none

namespace Incoming

variable {s s' : Incoming}

theorem next_data {flags : Flags} {size : UInt32} (h : s.next (.data flags size) = some s') :
    s.due = none ∧ (s.finished = true → size = 0) ∧
      s' = { due := some size.toNat, finished := s.finished || (flags.fin || flags.rst) } := by
  obtain ⟨⟨hdue, hsize⟩, heq⟩ := Option.ite_none_right_eq_some.mp h
  exact ⟨hdue, hsize, (Option.some.inj heq).symm⟩

theorem next_chunk {chunk : Bytes} (h : s.next (.dataChunk chunk) = some s') :
    ∃ due, s.due = some due ∧ chunk.length ≤ due ∧ (chunk = [] → due = 0) ∧
      s' = { s with
        due := if due - chunk.length = 0 then none else some (due - chunk.length) } := by
  simp only [next] at h
  split at h
  · obtain ⟨⟨hle, hempty⟩, heq⟩ := Option.ite_none_right_eq_some.mp h
    exact ⟨_, by assumption, hle, hempty, (Option.some.inj heq).symm⟩
  · cases h

theorem next_window {flags : Flags} {delta : UInt32}
    (h : s.next (.windowUpdate flags delta) = some s') :
    s.due = none ∧ s' = { s with finished := s.finished || (flags.fin || flags.rst) } := by
  obtain ⟨hdue, heq⟩ := Option.ite_none_right_eq_some.mp h
  exact ⟨hdue, (Option.some.inj heq).symm⟩

theorem next_finished {e : FrameStreamEvent} (h : s.next e = some s') :
    s'.finished = (s.finished || peerFinished [e]) := by
  cases e with
  | data flags size =>
      obtain ⟨-, -, rfl⟩ := next_data h
      simp [peerFinished, FrameStreamEvent.carries, FrameStreamEvent.flags]
  | dataChunk chunk =>
      obtain ⟨due, -, -, -, rfl⟩ := next_chunk h
      simp [peerFinished, FrameStreamEvent.carries, FrameStreamEvent.flags]
  | windowUpdate flags delta =>
      obtain ⟨-, rfl⟩ := next_window h
      simp [peerFinished, FrameStreamEvent.carries, FrameStreamEvent.flags]

end Incoming

/-- What has come of a sequence, if every event of it may come where it does. -/
def incoming (es : List FrameStreamEvent) : Option Incoming :=
  es.foldlM Incoming.next { due := none, finished := false }

theorem incoming_concat (es : List FrameStreamEvent) (e : FrameStreamEvent) :
    incoming (es ++ [e]) = (incoming es).bind (·.next e) := by
  rw [incoming, List.foldlM_append]
  show (incoming es).bind _ = _
  congr 1
  funext s
  exact Option.bind_fun_some _

/-- The sequence is one that the framing and the half-close allow. -/
def Allowed (es : List FrameStreamEvent) : Prop := (incoming es).isSome = true

instance (es : List FrameStreamEvent) : Decidable (Allowed es) :=
  inferInstanceAs (Decidable (_ = true))

theorem Allowed.concat {es : List FrameStreamEvent} {e : FrameStreamEvent}
    (h : Allowed (es ++ [e])) : ∃ s s', incoming es = some s ∧ s.next e = some s' := by
  obtain ⟨s', hs'⟩ := Option.isSome_iff_exists.mp h
  rw [incoming_concat] at hs'
  obtain ⟨s, hs, hnext⟩ := Option.bind_eq_some_iff.mp hs'
  exact ⟨s, s', hs, hnext⟩

theorem incoming_finished {es : List FrameStreamEvent} {s : Incoming} (h : incoming es = some s) :
    s.finished = peerFinished es := by
  induction es using List.reverseRecOn generalizing s with
  | nil =>
      obtain rfl := Option.some.inj h
      rfl
  | append_singleton es e ih =>
      rw [incoming_concat] at h
      obtain ⟨s₀, hs₀, hnext⟩ := Option.bind_eq_some_iff.mp h
      rw [peerFinished_append, ← ih hs₀]
      exact Incoming.next_finished hnext

/-! ### The order of payload and marks -/

/-- No payload comes after an empty chunk. -/
def MarksLast (log : List Bytes) : Prop := ∀ a b, log = a ++ [] :: b → b.flatten = []

theorem MarksLast.of_not_mem {log : List Bytes} (h : [] ∉ log) : MarksLast log := by
  rintro a b rfl
  exact absurd (List.mem_append_right _ List.mem_cons_self) h

/-- More marks do no harm. -/
theorem MarksLast.append {log new : List Bytes} (h : MarksLast log) (hnew : new.flatten = []) :
    MarksLast (log ++ new) := by
  intro a b hab
  rcases List.append_eq_append_iff.mp hab with ⟨a', -, hb⟩ | ⟨c', hlog, hc⟩
  · rw [hb, List.flatten_append, List.flatten_cons, List.nil_append] at hnew
    exact (List.append_eq_nil_iff.mp hnew).2
  · cases c' with
    | nil =>
        rw [List.nil_append] at hc
        rw [← hc, List.flatten_cons, List.nil_append] at hnew
        exact hnew
    | cons x c' =>
        obtain ⟨rfl, rfl⟩ := List.cons.inj hc
        show (c' ++ new).flatten = []
        rw [List.flatten_append, h a c' hlog, hnew, List.append_nil]

namespace Tended

/-- The step does not put payload behind a mark, and does not remove a head
for which payload may still come. -/
def Orderly (t : Tended) : PairOp → Prop
  | .input (.data flags size) => size ≠ 0 → t.pair.head.endsRemote flags = false
  | .input (.dataChunk chunk) => chunk ≠ [] → .dataChunk [] ∉ t.arrived
  | .poll => t.pair.head.outs = [] → t.pair.head.state.isClosed = true →
      peerFinished t.arrived = true ∧ t.pair.head.recvState.getD 0 = 0
  | _ => True

instance (t : Tended) : (op : PairOp) → Decidable (t.Orderly op)
  | .input (.data flags size) =>
      inferInstanceAs (Decidable (size ≠ 0 → t.pair.head.endsRemote flags = false))
  | .input (.dataChunk chunk) =>
      inferInstanceAs (Decidable (chunk ≠ [] → .dataChunk [] ∉ t.arrived))
  | .input (.windowUpdate _ _) | .handle _ => inferInstanceAs (Decidable True)
  | .poll => inferInstanceAs (Decidable (t.pair.head.outs = [] →
      t.pair.head.state.isClosed = true →
      peerFinished t.arrived = true ∧ t.pair.head.recvState.getD 0 = 0))

/-- While there is a handle, every step is orderly. -/
def OrderlyRun (t : Tended) : List PairOp → Prop
  | [] => True
  | op :: ops => (t.pair.handleAlive = true → t.Orderly op) ∧ (t.step op).OrderlyRun ops

instance decidableOrderlyRun : (t : Tended) → (ops : List PairOp) → Decidable (t.OrderlyRun ops)
  | _, [] => inferInstanceAs (Decidable True)
  | t, op :: ops =>
      have := decidableOrderlyRun (t.step op) ops
      inferInstanceAs (Decidable ((t.pair.handleAlive = true → t.Orderly op) ∧
        (t.step op).OrderlyRun ops))

/-- What the application has read, or can still read, is all the payload that
has arrived; and if a read has reported the end, all of it was read. -/
structure Complete (t : Tended) : Prop where
  kept : t.pair.handle.read ++ t.pair.handle.rest ++ t.pair.down.queue.flatten =
    payloadOf t.arrived
  first : t.pair.eof = true → t.pair.handle.read = payloadOf t.arrived

end Tended

/-- What an orderly run keeps. -/
structure TendedInv (opened : Bool) (id : StreamID) (t : Tended) (s : Incoming) : Prop where
  reach : PairReachable opened id t.pair
  seen : incoming t.arrived = some s
  inputs : t.pair.headAlive = true → t.pair.inputs = t.arrived ∧ t.pair.head.recvState = s.due
  marksLast : t.pair.handleAlive = true → MarksLast t.pair.down.log
  /-- in the middle of a payload there is no mark but of an empty chunk -/
  owing : t.pair.handleAlive = true → t.pair.headAlive = true → 0 < s.due.getD 0 →
    [] ∈ t.pair.down.log → .dataChunk [] ∈ t.arrived
  /-- the head is removed when nothing is to come -/
  removed : t.pair.handleAlive = true → t.pair.headAlive = false →
    s.finished = true ∧ s.due.getD 0 = 0 ∧ payloadOf t.pair.inputs = payloadOf t.arrived

namespace TendedInv

variable {opened : Bool} {id : StreamID} {t : Tended} {s : Incoming}

theorem payload (h : TendedInv opened id t s) (halive : t.pair.handleAlive = true) :
    payloadOf t.pair.inputs = payloadOf t.arrived := by
  cases hh : t.pair.headAlive with
  | true => rw [(h.inputs hh).1]
  | false => exact (h.removed halive hh).2.2

theorem complete (h : TendedInv opened id t s) (halive : t.pair.handleAlive = true) :
    t.Complete := by
  have hr := h.reach.readInv
  obtain ⟨popped, hlog, hpopped⟩ := hr.popped halive
  have hall : t.pair.down.log.flatten = payloadOf t.arrived :=
    (hr.tracks halive).trans (h.payload halive)
  refine ⟨?_, ?_⟩
  · rw [← hall, hlog, List.flatten_append, hpopped]
  · intro heof
    obtain ⟨before, after, hbefore, hread⟩ := h.reach.endMarks.eof heof
    -- nothing but marks comes after the mark that was read
    have hflat : t.pair.down.log.flatten = before.flatten := by
      rw [hbefore, List.flatten_append, List.flatten_cons,
        h.marksLast halive before after hbefore, List.append_nil, List.append_nil]
    rw [← hall]
    apply List.IsPrefix.eq_of_length_le hr.isPrefix
    rw [hflat]
    exact hread.length_le

/-- Steps that take in nothing, and leave the head where it is. -/
theorem quiet (h : TendedInv opened id t s) {q : StreamPair}
    (hsteps : ReflTransGen PairStep t.pair q) (hinputs : q.inputs = t.pair.inputs)
    (halive : q.headAlive = t.pair.headAlive)
    (hrecv : q.head.recvState = t.pair.head.recvState) :
    TendedInv opened id { t with pair := q } s := by
  have hlog := StreamPair.steps_downLog hsteps hinputs
  have hhandle : q.handleAlive = true → t.pair.handleAlive = true :=
    StreamPair.steps_handleAlive hsteps
  refine ⟨h.reach.steps hsteps, h.seen, ?_, ?_, ?_, ?_⟩
  · show q.headAlive = true → q.inputs = t.arrived ∧ q.head.recvState = s.due
    rw [halive, hinputs, hrecv]
    exact h.inputs
  · intro hh
    show MarksLast q.down.log
    rw [hlog]
    exact h.marksLast (hhandle hh)
  · show q.handleAlive = true → q.headAlive = true → _ → [] ∈ q.down.log → _
    rw [halive, hlog]
    exact fun hh => h.owing (hhandle hh)
  · show q.handleAlive = true → q.headAlive = false → _ ∧ _ ∧ payloadOf q.inputs = _
    rw [halive, hinputs]
    exact fun hh => h.removed (hhandle hh)

theorem handle (h : TendedInv opened id t s) (op : HandleOp) :
    TendedInv opened id (t.step (.handle op)) s := by
  apply h.quiet (StreamPair.handleOp_steps op)
  · exact (t.pair.handleOp_frame op).2.2
  · exact StreamPair.handleOp_headAlive op
  · rw [(t.pair.handleOp_frame op).1]

/-- The head is removed. -/
theorem remove (h : TendedInv opened id t s) (halive : t.pair.headAlive = true)
    (hover : t.pair.handleAlive = true →
      peerFinished t.arrived = true ∧ t.pair.head.recvState.getD 0 = 0) :
    TendedInv opened id { t with pair := t.pair.dropHead } s := by
  obtain ⟨hinputs, hrecv⟩ := h.inputs halive
  refine ⟨.step h.reach .dropHead, h.seen, fun hgone => (by cases hgone), h.marksLast,
    fun _ hgone => (by cases hgone), ?_⟩
  intro hh _
  obtain ⟨hfinished, hdue⟩ := hover hh
  refine ⟨?_, ?_, congrArg payloadOf hinputs⟩
  · rw [incoming_finished h.seen]
    exact hfinished
  · rw [← hrecv]
    exact hdue

theorem poll (h : TendedInv opened id t s)
    (horderly : t.pair.handleAlive = true → t.Orderly .poll) :
    TendedInv opened id (t.step .poll) s := by
  show TendedInv opened id t.poll s
  rw [Tended.poll]
  split
  · rename_i halive
    split
    · rename_i q hpoll
      rw [StreamPair.pollNext_none hpoll]
      obtain ⟨houts, hclosed⟩ := StreamPair.pollNext_eq_none_iff.mp (congrArg Prod.fst hpoll)
      exact h.remove halive fun hh => horderly hh houts hclosed
    · rename_i result q _ hpoll
      obtain rfl : t.pair.pollNext.2 = q := congrArg Prod.snd hpoll
      apply h.quiet (StreamPair.pollNext_steps halive)
      · rfl
      · exact StreamPair.pollNext_headAlive
      · exact StreamPair.pollNext_recvState
  · exact h

/-- An event arrives for a head that has been removed. -/
theorem lose (h : TendedInv opened id t s) (hgone : t.pair.headAlive = false)
    {e : FrameStreamEvent} {s' : Incoming} (hnext : s.next e = some s') :
    TendedInv opened id { t with arrived := t.arrived ++ [e] } s' := by
  have hdead : ¬ t.pair.headAlive = true := by simp [hgone]
  refine ⟨h.reach, ?_, fun halive => absurd halive hdead, h.marksLast,
    fun _ halive => absurd halive hdead, ?_⟩
  · show incoming (t.arrived ++ [e]) = some s'
    rw [incoming_concat, h.seen]
    exact hnext
  · intro hh _
    obtain ⟨hfinished, hdue, hpayload⟩ := h.removed hh hgone
    refine ⟨?_, ?_⟩
    · rw [Incoming.next_finished hnext, hfinished, Bool.true_or]
    · show _ ∧ payloadOf t.pair.inputs = payloadOf (t.arrived ++ [e])
      rw [payloadOf_append, ← hpayload, List.self_eq_append_right]
      -- nothing is due and nothing more may be announced
      cases e with
      | data flags size =>
          obtain ⟨-, hsize, rfl⟩ := Incoming.next_data hnext
          rw [hsize hfinished]
          exact ⟨rfl, rfl⟩
      | windowUpdate flags delta =>
          obtain ⟨-, rfl⟩ := Incoming.next_window hnext
          exact ⟨hdue, rfl⟩
      | dataChunk bytes =>
          obtain ⟨due, hsome, hle, -, rfl⟩ := Incoming.next_chunk hnext
          rw [hsome] at hdue
          obtain rfl : due = 0 := hdue
          obtain rfl : bytes = [] := List.length_eq_zero_iff.mp (Nat.le_zero.mp hle)
          exact ⟨rfl, rfl⟩

/-- The head takes in what may come. -/
theorem accepts {p : StreamPair} (hrecv : p.head.recvState = s.due) {e : FrameStreamEvent}
    {s' : Incoming} (hnext : s.next e = some s') :
    (p.onInput e).1 = .ok () ∧ (p.onInput e).2.head.recvState = s'.due := by
  cases e with
  | data flags size =>
      obtain ⟨hdue, -, rfl⟩ := Incoming.next_data hnext
      rw [StreamPair.onInput_header (hrecv.trans hdue)]
      exact ⟨rfl, rfl⟩
  | windowUpdate flags delta =>
      obtain ⟨-, rfl⟩ := Incoming.next_window hnext
      rw [StreamPair.onInput_window]
      exact ⟨rfl, hrecv⟩
  | dataChunk bytes =>
      obtain ⟨due, hdue, hle, -, rfl⟩ := Incoming.next_chunk hnext
      rw [StreamPair.onInput_chunk (hrecv.trans hdue) hle]
      exact ⟨rfl, rfl⟩

/-- Payload comes only where no mark has gone down. -/
theorem unmarked (h : TendedInv opened id t s) (hh : t.pair.handleAlive = true)
    (halive : t.pair.headAlive = true) {bytes : Bytes} {s' : Incoming}
    (hnext : s.next (.dataChunk bytes) = some s') (hne : bytes ≠ [])
    (horderly : t.Orderly (.input (.dataChunk bytes))) : [] ∉ t.pair.down.log := by
  obtain ⟨due, hdue, hle, -, -⟩ := Incoming.next_chunk hnext
  intro hmem
  apply horderly hne
  apply h.owing hh halive ?_ hmem
  rw [hdue]
  exact Nat.lt_of_lt_of_le (List.length_pos_iff.mpr hne) hle

/-- Payload announced by a header comes ahead of any mark for its flags. -/
theorem announced (h : TendedInv opened id t s) (halive : t.pair.headAlive = true)
    {flags : Flags} {size : UInt32} {s' : Incoming}
    (hnext : s.next (.data flags size) = some s') (hsize : size ≠ 0)
    (hmem : [] ∈ t.pair.down.log) : .dataChunk [] ∈ t.arrived := by
  have hmarked := h.reach.endMarks.log hmem
  obtain ⟨-, hzero, -⟩ := Incoming.next_data hnext
  rw [(h.inputs halive).1, marked, Bool.or_eq_true, ← incoming_finished h.seen,
    decide_eq_true_eq] at hmarked
  rcases hmarked with hfinished | hempty
  · -- nothing but an empty payload may be announced behind `FIN`
    exact absurd (hzero hfinished) hsize
  · exact hempty

/-- What an event sends down goes behind no mark, unless it is a mark. -/
theorem marksLast_sent (h : TendedInv opened id t s) (hh : t.pair.handleAlive = true)
    (halive : t.pair.headAlive = true) {e : FrameStreamEvent} {s' : Incoming}
    (hnext : s.next e = some s') (horderly : t.Orderly (.input e)) :
    MarksLast (t.pair.down.log ++ t.pair.sentDown e) := by
  cases e with
  | data flags size | windowUpdate flags delta =>
      apply (h.marksLast hh).append
      rw [StreamPair.sentDown]
      split <;> rfl
  | dataChunk bytes =>
      by_cases hne : bytes = []
      · apply (h.marksLast hh).append
        rw [hne]
        rfl
      · apply MarksLast.of_not_mem
        rw [StreamPair.sentDown, List.mem_append, List.mem_singleton, not_or]
        exact ⟨h.unmarked hh halive hnext hne horderly, fun hnil => hne hnil.symm⟩

/-- In the middle of a payload, after an event, there is no mark but of an
empty chunk. -/
theorem owing_sent (h : TendedInv opened id t s) (hh : t.pair.handleAlive = true)
    (halive : t.pair.headAlive = true) {e : FrameStreamEvent} {s' : Incoming}
    (hnext : s.next e = some s') (horderly : t.Orderly (.input e)) (hdue : 0 < s'.due.getD 0)
    (hmem : [] ∈ t.pair.down.log ++ t.pair.sentDown e) : .dataChunk [] ∈ t.arrived := by
  cases e with
  | data flags size =>
      obtain ⟨-, -, rfl⟩ := Incoming.next_data hnext
      have hsize : size ≠ 0 := by
        rintro rfl
        exact absurd hdue (Nat.lt_irrefl 0)
      rw [StreamPair.sentDown, horderly hsize, if_neg Bool.false_ne_true, List.append_nil] at hmem
      exact h.announced halive hnext hsize hmem
  | windowUpdate flags delta =>
      obtain ⟨hnone, rfl⟩ := Incoming.next_window hnext
      rw [hnone] at hdue
      exact absurd hdue (Nat.lt_irrefl 0)
  | dataChunk bytes =>
      obtain ⟨due, hsome, hle, hempty, rfl⟩ := Incoming.next_chunk hnext
      have hpos : 0 < due - bytes.length := by
        by_contra hzero
        rw [if_pos (Nat.eq_zero_of_not_pos hzero)] at hdue
        exact absurd hdue (Nat.lt_irrefl 0)
      rcases List.mem_append.mp hmem with hmem | hmem
      · apply h.owing hh halive ?_ hmem
        rw [hsome]
        exact Nat.lt_of_lt_of_le hpos (Nat.sub_le _ _)
      · -- an empty chunk ends its payload
        have hnil : bytes = [] := (List.mem_singleton.mp hmem).symm
        rw [hempty hnil, Nat.zero_sub] at hpos
        exact absurd hpos (Nat.lt_irrefl 0)

/-- An event arrives for a head that is there. -/
theorem take (h : TendedInv opened id t s) (halive : t.pair.headAlive = true)
    {e : FrameStreamEvent} {s' : Incoming} (hnext : s.next e = some s')
    (horderly : t.pair.handleAlive = true → t.Orderly (.input e)) :
    TendedInv opened id
      { pair := (t.pair.onInput e).2, arrived := t.arrived ++ [e] } s' := by
  obtain ⟨hinputs, hrecv⟩ := h.inputs halive
  obtain ⟨hok, hrecv'⟩ := accepts hrecv hnext
  have hin : t.pair.onInput e = (.ok (), (t.pair.onInput e).2) := Prod.ext hok rfl
  have hstep := StreamPair.onInput_ok halive hin
  have hlog := (StreamPair.onInput_remote h.reach halive hin).2
  have hlater := StreamPair.onInput_headAlive (p := t.pair) e
  generalize (t.pair.onInput e).2 = q at *
  have hhandle : q.handleAlive = true → t.pair.handleAlive = true :=
    PairStep.handleAlive hstep.1
  refine ⟨.step h.reach hstep.1, ?_, ?_, ?_, ?_, ?_⟩
  · show incoming (t.arrived ++ [e]) = some s'
    rw [incoming_concat, h.seen]
    exact hnext
  · intro _
    exact ⟨by rw [hstep.2, hinputs], hrecv'⟩
  · intro hh
    replace hh := hhandle hh
    show MarksLast q.down.log
    rw [hlog, if_pos hh]
    exact h.marksLast_sent hh halive hnext (horderly hh)
  · intro hh _ hdue hmem
    replace hh := hhandle hh
    replace hmem : [] ∈ q.down.log := hmem
    rw [hlog, if_pos hh] at hmem
    apply List.mem_append_left
    exact h.owing_sent hh halive hnext (horderly hh) hdue hmem
  · intro _ hgone
    -- the head is still there
    replace hgone : q.headAlive = false := hgone
    rw [hlater, halive] at hgone
    cases hgone

theorem input (h : TendedInv opened id t s) {e : FrameStreamEvent} {s' : Incoming}
    (hnext : s.next e = some s')
    (horderly : t.pair.handleAlive = true → t.Orderly (.input e)) :
    TendedInv opened id (t.step (.input e)) s' := by
  show TendedInv opened id (t.onInput e) s'
  rw [Tended.onInput]
  split
  · rename_i halive
    exact h.take halive hnext horderly
  · rename_i hgone
    exact h.lose (Bool.eq_false_iff.mpr hgone) hnext

theorem create (opened : Bool) (id : StreamID) :
    TendedInv opened id (Tended.create opened id) { due := none, finished := false } := by
  refine ⟨.init rfl, rfl, ?_, ?_, ?_, ?_⟩
  · intro _
    cases opened <;> exact ⟨rfl, rfl⟩
  · intro _
    apply MarksLast.of_not_mem
    cases opened <;> exact List.not_mem_nil
  · intro _ _ hdue
    exact absurd hdue (Nat.lt_irrefl 0)
  · intro _ hgone
    cases opened <;> cases hgone

theorem step (h : TendedInv opened id t s) {op : PairOp} (hallowed : Allowed (t.step op).arrived)
    (horderly : t.pair.handleAlive = true → t.Orderly op) :
    ∃ s', TendedInv opened id (t.step op) s' := by
  cases op with
  | poll => exact ⟨s, h.poll horderly⟩
  | handle op => exact ⟨s, h.handle op⟩
  | input e =>
      obtain ⟨s₀, s', hs₀, hnext⟩ := Allowed.concat hallowed
      obtain rfl : s = s₀ := Option.some.inj (h.seen.symm.trans hs₀)
      exact ⟨s', h.input hnext horderly⟩

end TendedInv

/-! ### Runs -/

namespace Tended

variable {t : Tended}

theorem allowed_of_step {op : PairOp} (h : Allowed (t.step op).arrived) : Allowed t.arrived := by
  cases op with
  | poll =>
      rwa [step_arrived, PairOp.events, List.append_nil] at h
  | handle op => exact h
  | input e =>
      obtain ⟨s, s', hs, -⟩ := Allowed.concat h
      exact Option.isSome_iff_exists.mpr ⟨s, hs⟩

theorem allowed_of_run {ops : List PairOp} (h : Allowed (t.run ops).arrived) :
    Allowed t.arrived := by
  induction ops generalizing t with
  | nil => exact h
  | cons op ops ih => exact allowed_of_step (ih h)

end Tended

theorem TendedInv.run {opened : Bool} {id : StreamID} {t : Tended} {s : Incoming}
    (h : TendedInv opened id t s) {ops : List PairOp} (hallowed : Allowed (t.run ops).arrived)
    (horderly : t.OrderlyRun ops) : ∀ pre, pre <+: ops →
      ∃ s', TendedInv opened id (t.run pre) s' := by
  induction ops generalizing t s with
  | nil =>
      intro pre hpre
      obtain rfl := List.prefix_nil.mp hpre
      exact ⟨s, h⟩
  | cons op ops ih =>
      obtain ⟨hop, hops⟩ := horderly
      intro pre hpre
      cases pre with
      | nil => exact ⟨s, h⟩
      | cons op' pre =>
          obtain ⟨rfl, hrest⟩ := List.cons_prefix_cons.mp hpre
          obtain ⟨s', hnext⟩ := h.step (Tended.allowed_of_run hallowed) hop
          exact ih hnext hallowed hops pre hrest

/-- In every run of a head, opened or accepted, over every sequence that may
arrive, whose steps are orderly while there is a handle: in every state on the
way in which there is one, what has been read or can still be read is all the
payload that has arrived; and if a read has reported the end, all of it has
been read. -/
theorem payload_before_end (opened : Bool) (id : StreamID) (ops : List PairOp)
    (hallowed : Allowed ((Tended.create opened id).run ops).arrived)
    (horderly : (Tended.create opened id).OrderlyRun ops) :
    ∀ pre, pre <+: ops → ((Tended.create opened id).run pre).pair.handleAlive = true →
      ((Tended.create opened id).run pre).Complete := by
  intro pre hpre halive
  obtain ⟨s, hinv⟩ := (TendedInv.create opened id).run hallowed horderly pre hpre
  exact hinv.complete halive

/-- The peer opens a stream, sends two bytes in two chunks and then `FIN`; the
handle closes its half, the head is polled until it is removed, and the
application reads. -/
def finAfterPayload : List PairOp :=
  [.input (.windowUpdate Flags.onlySyn 0), .poll, .input (.data Flags.empty 2),
    .input (.dataChunk [7]), .handle .close, .poll, .input (.dataChunk [8]),
    .input (.windowUpdate Flags.onlyFin 0), .poll, .handle (.read 1), .handle (.read 2),
    .handle (.read 1)]

theorem payload_before_end_finAfterPayload :
    let t := (Tended.create false ⟨1⟩).run finAfterPayload
    t.pair.headAlive = false ∧ t.pair.eof = true ∧ t.Complete := by
  intro t
  refine ⟨by decide, by decide, ?_⟩
  exact payload_before_end false ⟨1⟩ finAfterPayload (by decide) (by decide) _ List.prefix_rfl
    (by decide)

/-- The peer sends one byte in a frame with `FIN`, and the application reads. -/
def payloadWithFin : List PairOp :=
  [.input (.windowUpdate Flags.onlySyn 0), .input (.data Flags.onlyFin 1),
    .input (.dataChunk [7]), .handle (.read 1)]

/-- The end is reported with the byte still to be read. -/
theorem end_before_payload :
    ¬ ∀ (opened : Bool) (id : StreamID) (ops : List PairOp),
      Allowed ((Tended.create opened id).run ops).arrived →
      ∀ pre, pre <+: ops → ((Tended.create opened id).run pre).pair.handleAlive = true →
        ((Tended.create opened id).run pre).Complete := by
  intro h
  have hcomplete := h false ⟨1⟩ payloadWithFin (by decide) _ List.prefix_rfl (by decide)
  exact absurd (hcomplete.first (by decide)) (by decide)

end YamuxLowMem
