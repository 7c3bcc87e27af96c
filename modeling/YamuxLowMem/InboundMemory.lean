/-
YamuxLowMem/InboundMemory.lean

How much received data a stream can hold.

A head gives credit back for payload when it is received, not when the
application has read it.  So a peer that respects flow control can fill the
unbounded channel to the handle as far as it likes.  What waits there stays
within the two windows as long as no payload beyond them arrives while the
credit given back is ahead of what has been read.
-/
import YamuxLowMem.RemoteClosing

namespace YamuxLowMem

open Async

namespace StreamPair

/-- The payload bytes put into the channel to the handle and not yet returned
by a read. -/
def unread (p : StreamPair) : Nat := p.down.log.flatten.length - p.handle.read.length

/-- The peer respects flow control: it has sent no more payload than the first
window and the window updates the head has yielded. -/
def InCredit (p : StreamPair) : Prop :=
  (payloadOf p.inputs).length ≤ initialWindow.toNat + total FrameStreamEvent.delta p.emitted

/-- Payload that arrives is within the two windows granted at the start, or no
credit has been given back for bytes that have not been read yet. -/
def Earned (p : StreamPair) (op : PairOp) : Prop :=
  ∀ c, op = .input (.dataChunk c) → c ≠ [] →
    (payloadOf p.inputs).length + c.length ≤ 2 * initialWindow.toNat ∨
      total FrameStreamEvent.credit p.emitted ≤ p.handle.read.length

end StreamPair

open StreamPair

/-- A stream whose peer respects flow control. -/
def flowMachine (opened : Bool) (id : StreamID) (allowed : StreamPair → PairOp → Prop) :
    Run.Machine StreamPair where
  init p := p = StreamPair.create opened id
  step p q := ∃ op, allowed p op ∧ q = p.step op ∧ q.InCredit

section

variable {opened : Bool} {id : StreamID} {allowed : StreamPair → PairOp → Prop} {p q : StreamPair}

/-- A stream whose head is in use. -/
theorem flowMachine_reachable (h : (flowMachine opened id allowed).Reachable p) :
    PairReachable opened id p ∧ p.headAlive := by
  refine h.invariant ?_ ?_
  · rintro p rfl
    exact ⟨.init rfl, by cases opened <;> rfl⟩
  · rintro p q ⟨hreach, halive⟩ ⟨op, -, rfl, -⟩
    refine ⟨hreach.steps (step_steps halive op), ?_⟩
    rw [step_headAlive]
    exact halive

/-- What has been read is not forgotten. -/
theorem PairStep.read_prefix (h : PairStep p q) : p.handle.read <+: q.handle.read := by
  cases h with
  | readRest | readNext => exact List.prefix_append _ _
  | _ => exact List.prefix_rfl

theorem step_read_length (halive : p.headAlive) (op : PairOp) :
    p.handle.read.length ≤ (p.step op).handle.read.length := by
  refine Run.Machine.Steps.preserves (M := pairMachine true ⟨0⟩)
    (P := fun q => p.handle.read.length ≤ q.handle.read.length) ?_ (step_steps halive op)
    (Nat.le_refl _)
  intro q r hq hstep
  exact hq.trans (PairStep.read_prefix hstep).length_le

/-- Besides the credit for received payload, only the first event yielded
carries some. -/
theorem PairReachable.delta_emitted_le (h : PairReachable opened id p) :
    total FrameStreamEvent.delta p.emitted ≤
      initialWindow.toNat + total FrameStreamEvent.credit p.emitted := by
  obtain ⟨rest, hhistory, -, hlater⟩ := h.outgoing
  rw [StreamPair.history] at hhistory
  cases hemitted : p.emitted with
  | nil => exact Nat.zero_le _
  | cons e es =>
      rw [hemitted, List.cons_append] at hhistory
      obtain ⟨rfl, rfl⟩ := List.cons.inj hhistory
      have hrest : total FrameStreamEvent.delta es = total FrameStreamEvent.credit es :=
        congrArg List.sum (List.map_congr_left fun e he =>
          (hlater e (List.mem_append_left _ he)).delta_eq)
      rw [total_cons, total_cons, hrest]
      have hfirst : (firstEvent opened).delta = initialWindow.toNat := rfl
      omega

/-- The peer has sent at most the payload of one event more. -/
theorem onInput_payload_le (halive : p.headAlive) (event : FrameStreamEvent) :
    (payloadOf (p.onInput event).2.inputs).length ≤
      (payloadOf p.inputs).length + event.payload.length := by
  cases hin : p.onInput event with
  | mk result q =>
      cases result with
      | error e =>
          rw [onInput_error hin]
          exact Nat.le_add_right _ _
      | ok =>
          apply Nat.le_of_eq
          rw [(onInput_ok halive hin).2]
          simp

/-- Only payload that arrives adds bytes to what goes down to the handle. -/
theorem PairReachable.downLog_flatten (h : PairReachable opened id p) (halive : p.headAlive)
    (op : PairOp) (hop : ∀ c, op = .input (.dataChunk c) → c = []) :
    (p.step op).down.log.flatten = p.down.log.flatten := by
  cases op with
  | poll => rw [step, steps_downLog (pollNext_steps halive) pollNext_inputs]
  | handle op => rw [step, handleOp_downLog]
  | input event =>
      cases hin : p.onInput event with
      | mk result q =>
          rw [step, hin]
          cases result with
          | error e => rw [onInput_error hin]
          | ok =>
              rw [(onInput_remote h halive hin).2]
              split
              · have hnone : (p.sentDown event).flatten = [] := by
                  cases event with
                  | dataChunk c =>
                      rw [hop c rfl]
                      rfl
                  | data flags size | windowUpdate flags delta =>
                      rw [sentDown]
                      split <;> rfl
                rw [List.flatten_append, hnone, List.append_nil]
              · rfl

/-- What has gone down to the handle stays within two windows of what has been
read. -/
theorem log_le_read (h : (flowMachine opened id Earned).Reachable p) :
    p.down.log.flatten.length ≤ 2 * initialWindow.toNat + p.handle.read.length := by
  refine h.invariant_with (fun _ => flowMachine_reachable) ?_ ?_
  · rintro p rfl
    cases opened <;> exact Nat.zero_le _
  · rintro p q ⟨hreach, halive⟩ hp ⟨op, hearned, rfl, hflow⟩
    have hread := step_read_length halive op
    by_cases hop : ∃ c, op = .input (.dataChunk c) ∧ c ≠ []
    · obtain ⟨c, rfl, hc⟩ := hop
      have hreach' : PairReachable opened id (p.step (.input (.dataChunk c))) :=
        hreach.steps (step_steps halive _)
      have hlog := hreach'.readInv.log.length_le
      rcases hearned c rfl hc with hwindows | hcredit
      · -- all that has arrived is within the two windows
        have hinputs : (payloadOf (p.step (.input (.dataChunk c))).inputs).length ≤
            (payloadOf p.inputs).length + c.length := onInput_payload_le halive (.dataChunk c)
        omega
      · -- the peer has sent what it has credit for, and that has been read
        have hdelta := hreach.delta_emitted_le
        have hemitted : (p.step (.input (.dataChunk c))).emitted = p.emitted :=
          p.onInput_emitted (.dataChunk c)
        rw [InCredit, hemitted] at hflow
        omega
    · rw [hreach.downLog_flatten halive op fun c hc => by_contra fun hne => hop ⟨c, hc, hne⟩]
      omega

end

/-- In every run of a head whose peer respects flow control, and in which no
payload beyond the first two windows arrives while the credit given back is
ahead of what has been read, no more than two windows of payload are waiting to
be read. -/
theorem inbound_memory_bounded {opened : Bool} {id : StreamID} {p : StreamPair}
    (h : (flowMachine opened id Earned).Reachable p) : p.unread ≤ 2 * initialWindow.toNat := by
  have hlog := log_le_read h
  rw [unread]
  omega

/-- The run is allowed, and the peer stays within flow control along it. -/
def Follows (allowed : StreamPair → PairOp → Prop) (p : StreamPair) : List PairOp → Prop
  | [] => True
  | op :: ops => allowed p op ∧ (p.step op).InCredit ∧ Follows allowed (p.step op) ops

theorem reachable_of_follows {opened : Bool} {id : StreamID}
    {allowed : StreamPair → PairOp → Prop} {p : StreamPair} {ops : List PairOp}
    (hp : (flowMachine opened id allowed).Reachable p) (h : Follows allowed p ops) :
    (flowMachine opened id allowed).Reachable (p.run ops) := by
  induction ops generalizing p with
  | nil => exact hp
  | cons op ops ih => exact ih (hp.step ⟨op, h.1, rfl, h.2.1⟩) h.2.2

/-- The peer of an accepted stream sends a large payload, and gets credit for
it; the application reads all of it, and as much arrives again. -/
def readInTime (chunk : Bytes) : List PairOp :=
  [.poll, .input (.data Flags.empty 300000), .input (.dataChunk chunk), .poll,
    .handle (.read 300000), .input (.data Flags.empty 300000), .input (.dataChunk chunk)]

/-- The run goes through; more than two windows have arrived, and the second
payload waits. -/
theorem readInTime_run {chunk : Bytes} (hlen : chunk.length = 300000) :
    Follows Earned (StreamPair.create false ⟨1⟩) (readInTime chunk) ∧
      (payloadOf ((StreamPair.create false ⟨1⟩).run (readInTime chunk)).inputs).length = 600000 ∧
      ((StreamPair.create false ⟨1⟩).run (readInTime chunk)).unread = 300000 := by
  have hwindow : initialWindow.toNat = 262144 := rfl
  have hthreshold : defaultWindowUpdateThreshold.toNat = 131072 := rfl
  have hne : chunk ≠ [] := by
    rintro rfl
    cases hlen
  simp [Follows, run, readInTime, Earned, InCredit, unread, StreamPair.create, step, onInput,
    YamuxStreamHead.onInput, YamuxStreamHead.handleFlag_eq, YamuxStreamHead.flagged,
    YamuxStreamHead.flaggedDown, YamuxStreamHead.endsRemote, YamuxStreamHead.sendDown_eq,
    YamuxStreamHead.markReceivedBytes, acceptStream, ofHead, YamuxStreamHead.accept, pollNext,
    YamuxStreamHead.pollNext, Flags.empty, Flags.onlyAck, FrameStreamEvent.payload,
    FrameStreamEvent.delta, FrameStreamEvent.credit, StreamPair.handleOp, handleAlive,
    StreamPair.pollRead, YamuxStream.pollRead, YamuxStream.readChunk, YamuxStream.new,
    Channel.new, Channel.push, Channel.pollNext, defaultChunkCapacity, hlen, hne, hwindow,
    hthreshold]

theorem inbound_memory_bounded_read :
    ∃ p, (flowMachine false ⟨1⟩ Earned).Reachable p ∧
      (payloadOf p.inputs).length = 600000 ∧ p.unread = 300000 ∧
      p.unread ≤ 2 * initialWindow.toNat := by
  have hlen : (List.replicate 300000 (0 : UInt8)).length = 300000 := List.length_replicate
  obtain ⟨hfollows, hpayload, hunread⟩ := readInTime_run hlen
  have hreach := reachable_of_follows (.init rfl) hfollows
  exact ⟨_, hreach, hpayload, hunread, inbound_memory_bounded hreach⟩

/-- The application never reads.  The peer of an accepted stream fills both
windows, is given credit for all of it, and sends one byte more. -/
def fillWindows (chunk : Bytes) : List PairOp :=
  [.poll, .input (.data Flags.empty 524288), .input (.dataChunk chunk), .poll,
    .input (.data Flags.empty 1), .input (.dataChunk [0])]

theorem inbound_memory_exceeded :
    ¬ ∀ (opened : Bool) (id : StreamID) (p : StreamPair),
      (flowMachine opened id fun _ _ => True).Reachable p →
      p.unread ≤ 2 * initialWindow.toNat := by
  intro hall
  obtain ⟨chunk, hlen⟩ : ∃ chunk : Bytes, chunk.length = 524288 :=
    ⟨List.replicate 524288 0, List.length_replicate⟩
  have hwindow : initialWindow.toNat = 262144 := rfl
  have hthreshold : defaultWindowUpdateThreshold.toNat = 131072 := rfl
  have hfollows : Follows (fun _ _ => True) (StreamPair.create false ⟨1⟩) (fillWindows chunk) := by
    simp [Follows, fillWindows, InCredit, StreamPair.create, step, onInput,
      YamuxStreamHead.onInput, YamuxStreamHead.handleFlag_eq, YamuxStreamHead.flagged,
      YamuxStreamHead.markReceivedBytes, acceptStream, ofHead, YamuxStreamHead.accept, pollNext,
      YamuxStreamHead.pollNext, Flags.empty, FrameStreamEvent.payload, FrameStreamEvent.delta,
      defaultChunkCapacity, hlen, hwindow, hthreshold]
  have hunread : ((StreamPair.create false ⟨1⟩).run (fillWindows chunk)).unread = 524289 := by
    simp [fillWindows, unread, run, StreamPair.create, step, onInput, YamuxStreamHead.onInput,
      YamuxStreamHead.handleFlag_eq, YamuxStreamHead.flagged, YamuxStreamHead.flaggedDown,
      YamuxStreamHead.endsRemote, YamuxStreamHead.sendDown_eq, YamuxStreamHead.markReceivedBytes,
      acceptStream, ofHead, YamuxStreamHead.accept, pollNext, YamuxStreamHead.pollNext, Flags.empty,
      YamuxStream.new, Channel.new, Channel.push, defaultChunkCapacity, hlen, hthreshold]
  have hle := hall false ⟨1⟩ _ (reachable_of_follows (.init rfl) hfollows)
  rw [hunread, hwindow] at hle
  omega

end YamuxLowMem
