/-
YamuxLowMem/RemoteClosing.lean

Closing is irreversible, up to a late `ACK`.

`state.remote_open` is cleared by `FIN` and `RST` and set by `ACK`, and nothing
looks at what came before.  So an `ACK` behind a `FIN` opens the remote half
again, and behind a `RST` it brings the whole head back to life, with the
chunks that were waiting.  Also, the end is marked in the channel by an empty
chunk, as an empty payload is; and payload that is still to come when a `RST`
arrives may make a window update due.  Where none of this happens, the end is
the end.
-/
import YamuxLowMem.FinOrder

namespace YamuxLowMem

open Async Relation

namespace StreamPair

variable {p q : StreamPair}

/-! ### What polls and the handle leave alone -/

theorem drainRx_remoteOpen (h : YamuxStreamHead) (senderOpen : Bool) (queue : List Bytes) :
    (h.drainRx senderOpen queue).1.state.remoteOpen = h.state.remoteOpen := by
  induction queue generalizing h with
  | nil =>
      simp only [YamuxStreamHead.drainRx]
      split
      · rw [YamuxStreamHead.tryCloseLocal_eq]
      · rfl
  | cons chunk rest ih =>
      simp only [YamuxStreamHead.drainRx]
      split
      · split
        · rw [ih, YamuxStreamHead.tryCloseLocal_eq]
        · rw [ih]
          rfl
      · rfl

theorem pollNext_remoteOpen :
    p.pollNext.2.head.state.remoteOpen = p.head.state.remoteOpen := by
  have hdrain := drainRx_remoteOpen p.head p.up.senderOpen p.up.queue
  simp only [pollNext, YamuxStreamHead.pollNext]
  split
  · rfl
  · split
    · rfl
    · split <;> exact hdrain

/-- Once both halves are closed, a poll yields what is queued and no more. -/
theorem pollNext_closed (hclosed : p.head.state.isClosed = true) :
    p.pollNext.2.history = p.history ∧ p.pollNext.2.head.state = p.head.state := by
  refine ⟨?_, ?_⟩
  · rw [pollNext_history, drains, hclosed]
    simp
  · simp only [pollNext, YamuxStreamHead.pollNext, hclosed, if_true]
    split <;> rfl

end StreamPair

/-- Only what arrives goes down to the handle. -/
theorem PairStep.downLog {p q : StreamPair} (h : PairStep p q) (hin : q.inputs = p.inputs) :
    q.down.log = p.down.log := by
  cases h with
  | header | chunk | window => simp at hin
  | _ => rfl

/-- A handle that has been dropped does not come back. -/
theorem PairStep.handleAlive {p q : StreamPair} (h : PairStep p q) (hq : q.handleAlive = true) :
    p.handleAlive = true := by
  have hdown : ∀ {d : Channel Bytes} {chunk : Bytes},
      (YamuxStreamHead.sendDown d chunk).receiverOpen = d.receiverOpen := by
    intro d chunk
    rw [YamuxStreamHead.sendDown_eq]
    split <;> rfl
  cases h with
  | header flags | window flags =>
      rw [StreamPair.handleAlive] at hq ⊢
      simp only [YamuxStreamHead.flaggedDown] at hq
      split at hq
      · rwa [hdown] at hq
      · exact hq
  | chunk bytes =>
      rw [StreamPair.handleAlive, hdown] at hq
      exact hq
  | dropHandle => cases hq
  | _ => exact hq

namespace StreamPair

variable {p q : StreamPair}

theorem steps_downLog (h : ReflTransGen PairStep p q) (hin : q.inputs = p.inputs) :
    q.down.log = p.down.log := by
  have hquiet := quiet_steps h hin
  clear h hin
  induction hquiet with
  | refl => rfl
  | tail _ hstep ih => exact (hstep.1.downLog hstep.2).trans ih

theorem steps_handleAlive (h : ReflTransGen PairStep p q) (hq : q.handleAlive = true) :
    p.handleAlive = true := by
  induction h with
  | refl => exact hq
  | tail _ hstep ih => exact ih (PairStep.handleAlive hstep hq)

theorem handleOp_downLog (op : HandleOp) : (p.handleOp op).down.log = p.down.log :=
  steps_downLog (handleOp_steps op) (p.handleOp_frame op).2.2

theorem step_handleAlive (halive : p.headAlive) (op : PairOp)
    (h : (p.step op).handleAlive = true) : p.handleAlive = true :=
  steps_handleAlive (step_steps halive op) h

/-- What the head sends reaches a handle that is still there. -/
theorem sendDown_log {opened : Bool} {id : StreamID} (h : PairReachable opened id p)
    (halive : p.headAlive) (chunk : Bytes) :
    (YamuxStreamHead.sendDown p.down chunk).log =
      if p.handleAlive then p.down.log ++ [chunk] else p.down.log := by
  rw [YamuxStreamHead.sendDown_eq]
  cases hh : p.handleAlive with
  | true =>
      have hsender := h.readInv.sender halive hh
      rw [StreamPair.handleAlive] at hh
      rw [hsender, hh]
      rfl
  | false =>
      rw [StreamPair.handleAlive] at hh
      rw [hh, Bool.and_false]
      rfl

/-! ### The remote half -/

/-- The event ends the remote half: it carries `FIN` or `RST`, and the remote
half is open or the event opens it. -/
def Ends (p : StreamPair) (e : FrameStreamEvent) : Prop :=
  ∃ flags, e.flags = some flags ∧ p.head.endsRemote flags = true

/-- The head takes the event in. -/
def Accepts (p : StreamPair) (e : FrameStreamEvent) : Prop := (p.onInput e).1 = .ok ()

/-- Since `p` the remote half has been closed: it stays closed, and the end has
been marked once in the channel of the handle, if there was one. -/
structure Ended (p q : StreamPair) : Prop where
  closed : q.head.state.remoteOpen = false
  marked : p.handleAlive = true → ∃ rest, q.down.log = p.down.log ++ [] :: rest ∧ [] ∉ rest

/-- The step neither opens the remote half again nor marks the end again. -/
def KeepsEnd (q : StreamPair) (op : PairOp) : Prop :=
  ∀ e, op = .input e → q.Accepts e →
    (e.carries Flags.ack = true →
      (e.carries Flags.fin || e.carries Flags.rst) = true ∧ q.handleAlive = false) ∧
    (e = .dataChunk [] → q.handleAlive = false)

/-- The chunks that an accepted event sends down to the handle. -/
def sentDown (p : StreamPair) : FrameStreamEvent → List Bytes
  | .dataChunk bytes => [bytes]
  | .data flags _ | .windowUpdate flags _ => if p.head.endsRemote flags then [[]] else []

/-- What accepting an event does to the remote half and to the channel. -/
theorem onInput_remote {opened : Bool} {id : StreamID} (h : PairReachable opened id p)
    (halive : p.headAlive) {e : FrameStreamEvent} {q : StreamPair}
    (hin : p.onInput e = (.ok (), q)) :
    q.head.state.remoteOpen = ((p.head.state.remoteOpen || e.carries Flags.ack) &&
        !(e.carries Flags.rst || e.carries Flags.fin)) ∧
      q.down.log = if p.handleAlive then p.down.log ++ p.sentDown e else p.down.log := by
  have hflagged : ∀ flags, (p.head.flaggedDown p.down flags).log =
      if p.handleAlive then p.down.log ++ (if p.head.endsRemote flags then [[]] else [])
      else p.down.log := by
    intro flags
    rw [YamuxStreamHead.flaggedDown]
    split
    · exact sendDown_log h halive []
    · rw [List.append_nil, ite_self]
  cases e with
  | data flags size =>
      obtain ⟨-, rfl⟩ := onInput_header_ok hin
      exact ⟨rfl, hflagged flags⟩
  | windowUpdate flags delta =>
      obtain rfl := onInput_window_ok hin
      exact ⟨rfl, hflagged flags⟩
  | dataChunk bytes =>
      obtain ⟨due, -, -, rfl⟩ := onInput_chunk_ok hin
      refine ⟨?_, sendDown_log h halive bytes⟩
      simp [YamuxStreamHead.markReceivedBytes_eq, FrameStreamEvent.carries,
        FrameStreamEvent.flags]

/-- An event that ends the remote half. -/
theorem Ended.start {opened : Bool} {id : StreamID} (h : PairReachable opened id p)
    (halive : p.headAlive) {e : FrameStreamEvent} {q : StreamPair}
    (hin : p.onInput e = (.ok (), q)) (hend : p.Ends e) : Ended p q := by
  obtain ⟨hremote, hlog⟩ := onInput_remote h halive hin
  obtain ⟨flags, hflags, hends⟩ := hend
  have hboth := hends
  rw [YamuxStreamHead.endsRemote, Bool.and_eq_true] at hboth
  refine ⟨?_, ?_⟩
  · rw [hremote]
    simp [FrameStreamEvent.carries, hflags, hboth.2]
  · intro hh
    refine ⟨[], ?_, List.not_mem_nil⟩
    rw [hlog, if_pos hh]
    cases e with
    | dataChunk bytes => cases hflags
    | data flags' size | windowUpdate flags' delta =>
        obtain rfl := Option.some.inj hflags
        rw [sentDown, if_pos hends]

theorem keepsEnd_input {e : FrameStreamEvent} {r : StreamPair} (hin : q.onInput e = (.ok (), r)) :
    q.KeepsEnd (.input e) ↔ (e.carries Flags.ack = true →
      (e.carries Flags.fin || e.carries Flags.rst) = true ∧ q.handleAlive = false) ∧
      (e = .dataChunk [] → q.handleAlive = false) := by
  simp [KeepsEnd, Accepts, hin]

/-- A refused event is no step, and so keeps everything. -/
theorem step_refused {e : FrameStreamEvent} {err : YamuxStreamHeadError} {r : StreamPair}
    (hin : q.onInput e = (.error err, r)) : q.step (.input e) = q ∧ ¬ q.Accepts e := by
  refine ⟨?_, ?_⟩
  · rw [step, hin]
    exact onInput_error hin
  · intro haccepts
    rw [Accepts, hin] at haccepts
    cases haccepts

/-- An accepted event keeps the end for a handle that is gone: nobody is there
to see another mark. -/
theorem Ended.input_gone {opened : Bool} {id : StreamID} {q r : StreamPair}
    {e : FrameStreamEvent} (hreach : PairReachable opened id q) (halive : q.headAlive)
    (hq : Ended p q) (hin : q.onInput e = (.ok (), r)) (hgone : q.handleAlive = false) :
    Ended p r ↔ q.KeepsEnd (.input e) := by
  obtain ⟨hremote, hlog⟩ := onInput_remote hreach halive hin
  rw [hq.closed, Bool.false_or] at hremote
  rw [hgone] at hlog
  replace hlog : r.down.log = q.down.log := hlog
  have hended : Ended p r ↔ r.head.state.remoteOpen = false :=
    ⟨fun h => h.closed, fun h => ⟨h, hlog ▸ hq.marked⟩⟩
  rw [hended, hremote, keepsEnd_input hin, hgone]
  cases e.carries Flags.ack <;> cases e.carries Flags.rst <;>
    cases e.carries Flags.fin <;> simp

/-- An accepted event keeps the end for a handle that is there. -/
theorem Ended.input_present {opened : Bool} {id : StreamID} {q r : StreamPair}
    {e : FrameStreamEvent} (hreach : PairReachable opened id q) (halive : q.headAlive)
    (hq : Ended p q) (hin : q.onInput e = (.ok (), r)) (hhandle : q.handleAlive = true)
    (hbefore : p.handleAlive = true) : Ended p r ↔ q.KeepsEnd (.input e) := by
  obtain ⟨hremote, hlog⟩ := onInput_remote hreach halive hin
  obtain ⟨rest, hrest, hnot⟩ := hq.marked hbefore
  rw [hq.closed, Bool.false_or] at hremote
  rw [hhandle, if_pos rfl, hrest, List.append_assoc, List.cons_append] at hlog
  have hended : Ended p r ↔ r.head.state.remoteOpen = false ∧ [] ∉ q.sentDown e := by
    constructor
    · rintro ⟨hclosed, hmarked⟩
      obtain ⟨rest', hrest', hnot'⟩ := hmarked hbefore
      rw [hlog, List.append_cancel_left_eq] at hrest'
      obtain rfl := (List.cons.inj hrest').2
      exact ⟨hclosed, fun hmem => hnot' (List.mem_append_right _ hmem)⟩
    · rintro ⟨hclosed, hsent⟩
      refine ⟨hclosed, fun _ => ⟨_, hlog, ?_⟩⟩
      rw [List.mem_append, not_or]
      exact ⟨hnot, hsent⟩
  rw [hended, hremote, keepsEnd_input hin, hhandle]
  cases e with
  | dataChunk bytes =>
      simp [sentDown, FrameStreamEvent.carries, FrameStreamEvent.flags, eq_comm]
  | data flags size | windowUpdate flags delta =>
      -- the remote half is closed, so flags mark the end again only with an `ACK`
      simp only [sentDown, YamuxStreamHead.endsRemote, hq.closed, FrameStreamEvent.carries,
        FrameStreamEvent.flags, Option.map_some, Option.getD_some]
      cases flags.ack <;> cases flags.rst <;> cases flags.fin <;> simp

/-- A step keeps the end exactly when it does not open the remote half again or
mark the end again. -/
theorem Ended.step_iff {opened : Bool} {id : StreamID} {q : StreamPair}
    (hreach : PairReachable opened id q) (halive : q.headAlive)
    (hh : q.handleAlive = true → p.handleAlive = true) (hq : Ended p q) (op : PairOp) :
    Ended p (q.step op) ↔ q.KeepsEnd op := by
  cases op with
  | poll =>
      refine iff_of_true ⟨?_, hq.marked⟩ (fun e he => by cases he)
      rw [step, pollNext_remoteOpen]
      exact hq.closed
  | handle op =>
      refine iff_of_true ⟨?_, ?_⟩ (fun e he => by cases he)
      · rw [step, (q.handleOp_frame op).1]
        exact hq.closed
      · rw [step, handleOp_downLog]
        exact hq.marked
  | input e =>
      cases hin : q.onInput e with
      | mk result r =>
          cases result with
          | error err =>
              obtain ⟨hstep, hrefused⟩ := step_refused hin
              rw [hstep]
              refine iff_of_true hq fun e' he haccepts => ?_
              obtain rfl := PairOp.input.inj he
              exact absurd haccepts hrefused
          | ok =>
              rw [step, hin]
              cases hhandle : q.handleAlive with
              | false => exact hq.input_gone hreach halive hin hhandle
              | true => exact hq.input_present hreach halive hin hhandle (hh hhandle)

/-! ### After a `RST` -/

/-- Polling yields what is queued, and changes nothing else. -/
theorem run_polls (n : Nat) (p : StreamPair) (hn : p.head.outs.length = n) :
    (p.run (List.replicate n .poll)).head.outs = [] ∧
      (p.run (List.replicate n .poll)).head.state = p.head.state := by
  induction n generalizing p with
  | zero => exact ⟨List.length_eq_zero_iff.mp hn, rfl⟩
  | succ n ih =>
      cases ho : p.head.outs with
      | nil =>
          rw [ho] at hn
          cases hn
      | cons e rest =>
          have hpoll : p.pollNext.2 = { p with
              head := { p.head with outs := rest }
              emitted := p.emitted ++ [e] } := by
            simp [pollNext, YamuxStreamHead.pollNext, ho]
          rw [ho] at hn
          have hrest := ih p.pollNext.2 (by rw [hpoll]; exact Nat.succ.inj hn)
          rw [List.replicate_succ, run, List.foldl_cons]
          show (p.pollNext.2.run _).head.outs = [] ∧ (p.pollNext.2.run _).head.state = _
          refine ⟨hrest.1, hrest.2.trans ?_⟩
          rw [hpoll]

/-- Since `p` a `RST` has been processed: nothing but a `FIN` has been put out,
and once the queue is yielded the stream is over. -/
structure Reset (p q : StreamPair) : Prop where
  history : q.history = p.history ∨ q.history = p.history ++ [finEvent]
  finished : (q.run (List.replicate q.head.outs.length .poll)).pollNext.1 = .ready none

/-- The step neither opens the remote half again nor makes a window update due. -/
def KeepsReset (q : StreamPair) (op : PairOp) : Prop :=
  ∀ e, op = .input e → q.Accepts e →
    (e.carries Flags.ack = true → (e.carries Flags.fin || e.carries Flags.rst) = true) ∧
      ∀ c, e = .dataChunk c → q.head.dueCredit c.length = false

theorem over_iff (q : StreamPair) :
    (q.run (List.replicate q.head.outs.length .poll)).pollNext.1 = .ready none ↔
      q.head.state.isClosed = true := by
  obtain ⟨houts, hstate⟩ := run_polls q.head.outs.length q rfl
  rw [pollNext_eq_none_iff, houts, hstate]
  exact and_iff_right rfl

/-- A `RST`. -/
theorem Reset.start {opened : Bool} {id : StreamID} (h : PairReachable opened id p)
    (halive : p.headAlive) {e : FrameStreamEvent} {q : StreamPair}
    (hin : p.onInput e = (.ok (), q)) (hrst : e.carries Flags.rst = true) : Reset p q := by
  obtain ⟨hremote, -⟩ := onInput_remote h halive hin
  obtain ⟨hlocal, hhistory⟩ := onInput_local hin
  refine ⟨?_, ?_⟩
  · rw [hhistory]
    cases e with
    | dataChunk bytes => cases hrst
    | data flags size | windowUpdate flags delta =>
        rw [answers]
        split
        · exact Or.inr rfl
        · exact Or.inl (List.append_nil _)
  · rw [over_iff, State.isClosed, hlocal, hremote, hrst]
    simp

/-- A window update is not what a `RST` puts out. -/
theorem Reset.no_credit {p q : StreamPair} (hq : Reset p q) (n : Nat) :
    ¬ (q.history ++ [creditEvent n] = p.history ∨
      q.history ++ [creditEvent n] = p.history ++ [finEvent]) := by
  have hne : creditEvent n ≠ finEvent := by
    simp [creditEvent, finEvent, Flags.empty, Flags.onlyFin]
  rcases hq.history with h | h <;> rw [h] <;> simp [hne]

theorem keepsReset_input {e : FrameStreamEvent} {r : StreamPair}
    (hin : q.onInput e = (.ok (), r)) :
    q.KeepsReset (.input e) ↔ (e.carries Flags.ack = true →
      (e.carries Flags.fin || e.carries Flags.rst) = true) ∧
      ∀ c, e = .dataChunk c → q.head.dueCredit c.length = false := by
  simp [KeepsReset, Accepts, hin]

/-- An accepted event. -/
theorem Reset.input_iff {opened : Bool} {id : StreamID} {q r : StreamPair}
    {e : FrameStreamEvent} (hreach : PairReachable opened id q) (halive : q.headAlive)
    (hq : Reset p q) (hin : q.onInput e = (.ok (), r)) :
    Reset p r ↔ q.KeepsReset (.input e) := by
  have hclosed := (over_iff q).mp hq.finished
  obtain ⟨hlocal, hremote⟩ :
      q.head.state.localOpen = false ∧ q.head.state.remoteOpen = false := by
    simpa [State.isClosed] using hclosed
  obtain ⟨hremote', -⟩ := onInput_remote hreach halive hin
  obtain ⟨hlocal', hhistory'⟩ := onInput_local hin
  -- the local half stays closed, so the stream is over unless the remote half opens
  have hover : (r.run (List.replicate r.head.outs.length .poll)).pollNext.1 = .ready none ↔
      r.head.state.remoteOpen = false := by
    rw [over_iff, State.isClosed, hlocal', hlocal]
    simp
  have hreset : Reset p r ↔ r.head.state.remoteOpen = false ∧
      (r.history = p.history ∨ r.history = p.history ++ [finEvent]) :=
    ⟨fun h => ⟨hover.mp h.finished, h.history⟩, fun h => ⟨h.2, hover.mpr h.1⟩⟩
  rw [keepsReset_input hin, hreset, hremote', hremote, Bool.false_or, hhistory']
  cases e with
  | dataChunk bytes =>
      rw [answers]
      cases hdue : q.head.dueCredit bytes.length with
      | true =>
          have hnot := hq.no_credit (q.head.window.recv + bytes.length)
          simpa [FrameStreamEvent.carries, FrameStreamEvent.flags, hdue] using hnot
      | false =>
          have hsame := hq.history
          simpa [FrameStreamEvent.carries, FrameStreamEvent.flags, hdue] using hsame
  | data flags size | windowUpdate flags delta =>
      rw [answers, hlocal, Bool.and_false, if_neg Bool.false_ne_true, List.append_nil]
      simp only [hq.history, and_true, reduceCtorEq, false_imp_iff, implies_true,
        FrameStreamEvent.carries, FrameStreamEvent.flags, Option.map_some, Option.getD_some]
      cases flags.ack <;> cases flags.rst <;> cases flags.fin <;> simp

/-- A step leaves a reset stream as it is exactly when it does not open the
remote half again or make a window update due. -/
theorem Reset.step_iff {opened : Bool} {id : StreamID} {q : StreamPair}
    (hreach : PairReachable opened id q) (halive : q.headAlive) (hq : Reset p q) (op : PairOp) :
    Reset p (q.step op) ↔ q.KeepsReset op := by
  have hclosed := (over_iff q).mp hq.finished
  cases op with
  | poll =>
      obtain ⟨hhistory, hstate⟩ := pollNext_closed hclosed
      refine iff_of_true ⟨?_, ?_⟩ (fun e he => by cases he)
      · rw [step, hhistory]
        exact hq.history
      · rw [over_iff, step, hstate]
        exact hclosed
  | handle op =>
      obtain ⟨hhead, hemitted, -⟩ := q.handleOp_frame op
      refine iff_of_true ⟨?_, ?_⟩ (fun e he => by cases he)
      · rw [step, StreamPair.history, hhead, hemitted]
        exact hq.history
      · rw [over_iff, step, hhead]
        exact hclosed
  | input e =>
      cases hin : q.onInput e with
      | mk result r =>
          cases result with
          | error err =>
              obtain ⟨hstep, hrefused⟩ := step_refused hin
              rw [hstep]
              refine iff_of_true hq fun e' he haccepts => ?_
              obtain rfl := PairOp.input.inj he
              exact absurd haccepts hrefused
          | ok =>
              rw [step, hin]
              exact hq.input_iff hreach halive hin

/-! ### Runs -/

section Runs

variable {opened : Bool} {id : StreamID} {pre : List PairOp} {e : FrameStreamEvent}

/-- The run of a stream from its creation on, after an event that was accepted. -/
theorem run_accepts (haccepts : ((create opened id).run pre).Accepts e) :
    ((create opened id).run pre).onInput e =
      (.ok (), (create opened id).run (pre ++ [.input e])) := by
  rw [run_concat, step]
  exact Prod.ext haccepts rfl

theorem run_handleAlive (post : List PairOp)
    (h : ((create opened id).run (pre ++ post)).handleAlive = true) :
    ((create opened id).run pre).handleAlive = true := by
  induction post using List.reverseRecOn with
  | nil => rwa [List.append_nil] at h
  | append_singleton post op ih =>
      rw [← List.append_assoc, run_concat] at h
      exact ih (step_handleAlive (run_reachable opened id _).2 op h)

/-- From an end on, the end lasts exactly when every step keeps it. -/
theorem Ended.run_iff (haccepts : ((create opened id).run pre).Accepts e)
    (hends : ((create opened id).run pre).Ends e) (ops : List PairOp) :
    (∀ post : List PairOp, pre ++ [PairOp.input e] ++ post <+: ops →
      ((create opened id).run pre).Ended
        ((create opened id).run (pre ++ [PairOp.input e] ++ post))) ↔
    ∀ (post : List PairOp) (op : PairOp), pre ++ [PairOp.input e] ++ post ++ [op] <+: ops →
      ((create opened id).run (pre ++ [PairOp.input e] ++ post)).KeepsEnd op := by
  obtain ⟨hreach, halive⟩ := run_reachable opened id pre
  apply Run.throughout_from_iff step ops
  · intro _
    exact Ended.start hreach halive (run_accepts haccepts) hends
  · intro post op _ hq
    obtain ⟨hreach', halive'⟩ := run_reachable opened id (pre ++ [PairOp.input e] ++ post)
    refine Ended.step_iff hreach' halive' ?_ hq op
    -- a handle that is there now was there when the end came
    rw [List.append_assoc]
    exact run_handleAlive ([.input e] ++ post)

/-- From a `RST` on, the stream stays reset exactly when every step keeps it so. -/
theorem Reset.run_iff (haccepts : ((create opened id).run pre).Accepts e)
    (hrst : e.carries Flags.rst = true) (ops : List PairOp) :
    (∀ post : List PairOp, pre ++ [PairOp.input e] ++ post <+: ops →
      ((create opened id).run pre).Reset
        ((create opened id).run (pre ++ [PairOp.input e] ++ post))) ↔
    ∀ (post : List PairOp) (op : PairOp), pre ++ [PairOp.input e] ++ post ++ [op] <+: ops →
      ((create opened id).run (pre ++ [PairOp.input e] ++ post)).KeepsReset op := by
  obtain ⟨hreach, halive⟩ := run_reachable opened id pre
  apply Run.throughout_from_iff step ops
  · intro _
    exact Reset.start hreach halive (run_accepts haccepts) hrst
  · intro post op _ hq
    obtain ⟨hreach', halive'⟩ := run_reachable opened id (pre ++ [PairOp.input e] ++ post)
    exact Reset.step_iff hreach' halive' hq op

end Runs

end StreamPair

/-- In every run of a head: "once a `FIN` or `RST` has ended the remote half, it
stays closed and the end is marked once; once a `RST` has arrived, nothing but
a `FIN` is put out, and then the stream is over" holds exactly when no later
step opens the remote half again, marks the end again or, after a `RST`, makes
a window update due. -/
theorem closing_irreversible_iff (opened : Bool) (id : StreamID) (ops : List PairOp) :
    let p := fun pre => (StreamPair.create opened id).run pre
    (∀ pre e, (p pre).Accepts e → ∀ post, pre ++ [.input e] ++ post <+: ops →
        ((p pre).Ends e → (p pre).Ended (p (pre ++ [.input e] ++ post))) ∧
        (e.carries Flags.rst = true → (p pre).Reset (p (pre ++ [.input e] ++ post)))) ↔
      ∀ pre e, (p pre).Accepts e → ∀ post op, pre ++ [.input e] ++ post ++ [op] <+: ops →
        ((p pre).Ends e → (p (pre ++ [.input e] ++ post)).KeepsEnd op) ∧
        (e.carries Flags.rst = true → (p (pre ++ [.input e] ++ post)).KeepsReset op) := by
  intro p
  refine forall_congr' fun pre => forall_congr' fun e => forall_congr' fun haccepts => ?_
  have hended := StreamPair.Ended.run_iff (e := e) haccepts
  have hreset := StreamPair.Reset.run_iff (e := e) haccepts
  constructor
  · intro h post op hops
    refine ⟨fun hends => ?_, fun hrst => ?_⟩
    · exact (hended hends ops).mp (fun post' hpost' => (h post' hpost').1 hends) post op hops
    · exact (hreset hrst ops).mp (fun post' hpost' => (h post' hpost').2 hrst) post op hops
  · intro h post hops
    refine ⟨fun hends => ?_, fun hrst => ?_⟩
    · exact (hended hends ops).mpr (fun post' op hop => (h post' op hop).1 hends) post hops
    · exact (hreset hrst ops).mpr (fun post' op hop => (h post' op hop).2 hrst) post hops

/-- An `ACK` behind a `FIN`. -/
theorem ack_reopens :
    ¬ ∀ (opened : Bool) (id : StreamID) (ops : List PairOp),
      let p := fun pre => (StreamPair.create opened id).run pre
      ∀ pre e, (p pre).Accepts e → ∀ post, pre ++ [.input e] ++ post <+: ops →
        ((p pre).Ends e → (p pre).Ended (p (pre ++ [.input e] ++ post))) ∧
        (e.carries Flags.rst = true → (p pre).Reset (p (pre ++ [.input e] ++ post))) := by
  intro h
  let fin : FrameStreamEvent := .windowUpdate Flags.onlyFin 0
  let ack : FrameStreamEvent := .windowUpdate Flags.onlyAck 0
  have hrun := h false ⟨1⟩ [.input fin, .input ack] [] fin rfl [.input ack] (List.prefix_refl _)
  have hclosed := (hrun.1 ⟨Flags.onlyFin, rfl, by decide⟩).closed
  exact absurd hclosed (by decide)

end YamuxLowMem
