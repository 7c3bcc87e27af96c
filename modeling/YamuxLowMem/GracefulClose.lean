/-
YamuxLowMem/GracefulClose.lean

What a session has sent when, after `close`, `poll_next` answers `Ready(None)`.

The call hands frames to the transport until one is refused, and then closes
the transport, which flushes the buffer.  If the I/O object is pending at the
refusal and ready again at the flush, the buffer gets empty, the I/O object is
closed, and the frames refused are never sent.  That is the only way to lose
them.  A frame can only be refused when the buffer has reached its limit, so
where it cannot get there before the last frame is handed over, everything is
sent, whatever the I/O object answers.
-/
import YamuxLowMem.Forecast
import YamuxLowMem.Outbound

namespace YamuxLowMem

open Async

/-! ### When nothing can be refused -/

namespace YamuxSession

/-- What can be in the write buffer when the last queued frame comes up. -/
def backlog (s : YamuxSession) : Nat :=
  s.transport.buffered.length + (encoding s.outQueue.dropLast).length

/-- The last queued frame is sure to be handed over. -/
def Fits (s : YamuxSession) : Prop :=
  s.outQueue = [] ∨ s.backlog = 0 ∨ s.backlog < s.transport.maxWriterBuffer

variable {s : YamuxSession}

/-- Then nothing is refused. -/
theorem Fits.nothing_left (h : s.Fits) {t : YamuxTransport} {done rest : List Frame}
    (hsplit : s.outQueue = done ++ rest) (hrun : SendRun s.transport done t rest) : rest = [] := by
  by_contra hrest
  obtain ⟨-, hnonempty, hlimit⟩ := hrun.refused hrest
  have hpos : 0 < t.buffered.length := List.length_pos_iff.mpr hnonempty
  -- what is in the buffer was there before, or has been handed over
  have hbytes := congrArg List.length hrun.bytes
  simp only [List.length_append] at hbytes
  have haccepted := hrun.accepted.length_le
  have hdone : (encoding done).length ≤ (encoding s.outQueue.dropLast).length := by
    rw [hsplit, List.dropLast_append_of_ne_nil hrest, encoding_append, List.length_append]
    exact Nat.le_add_right _ _
  have hbacklog : t.buffered.length ≤ s.backlog := by
    rw [backlog]
    omega
  rcases h with hqueue | hzero | hroom
  · rw [hqueue] at hsplit
    exact hrest (List.append_eq_nil_iff.mp hsplit.symm).2
  · omega
  · omega

/-- `Pending` keeps a frame out of the full buffer, and then the I/O object takes
the buffer and is closed. -/
def LosesQueue (s : YamuxSession) : Prop :=
  Overtaken s.firstRound ∧ s.transport.stream.pollClose.1.isReady = true

instance (s : YamuxSession) : Decidable s.LosesQueue := inferInstanceAs (Decidable (_ ∧ _))

/-- So nothing is lost, whatever the I/O object answers. -/
theorem Fits.keepsQueue (h : s.Fits) (hw : s.Wf) (hp : s.transport.writer.buffer.Packed) :
    ¬ s.LosesQueue := by
  rintro ⟨⟨hleft, -⟩, -⟩
  obtain ⟨t, done, rest, hsend⟩ := exists_sending hw false
  rw [(hsend.first hw hp).rest] at hleft
  exact hleft (h.nothing_left hsend.split hsend.run)

end YamuxSession

/-! ### Closing -/

/-- The I/O object reports no error. -/
def NoErrors (writes : List (Poll (Except IoError Nat)))
    (closes : List (Poll (Except IoError Unit))) : Prop :=
  (∀ e, .ready (.error e) ∉ writes) ∧ ∀ e, .ready (.error e) ∉ closes

/-- `close` is not called again. -/
def noClose : Guard := fun _ m => ∀ code, m ≠ .close code

/-- `close` has been called, last with `code`. -/
structure Closing (code : UInt32) (s : YamuxSession) : Prop where
  wf : s.Wf
  manualClose : s.manualClose = true
  last : ∃ fs, s.transport.sent ++ s.outQueue = fs ++ [.session (.goAway code)]
  bytes : s.transport.stream.accepted ++ s.transport.buffered = encoding s.transport.sent

/-- Nothing is left to be sent, and the last bytes sent are the `GoAway`. -/
def SentOut (code : UInt32) (s' : YamuxSession) : Prop :=
  s'.outQueue = [] ∧ s'.transport.buffered = [] ∧
    ∃ front, s'.transport.stream.accepted = front ++ (Frame.session (.goAway code)).encode

namespace Closing

open YamuxSession

variable {code : UInt32} {s s' : YamuxSession}

/-- The state after the send loop and the flush, whatever becomes of the I/O
object. -/
theorem flushed {t t' : YamuxTransport} {done rest : List Frame}
    {result : Poll (Except YamuxTransportError Unit)} {io : Io} (h : Closing code s)
    (hsend : Sending s false t done rest) (hflush : YamuxTransport.Flush result t t')
    (hio : io.accepted = t'.stream.accepted) :
    Closing code { s with transport := { t' with stream := io }, outQueue := rest } := by
  have hsent : t'.sent = s.transport.sent ++ done := by
    rw [hflush.eq]
    exact hsend.run.sent
  refine ⟨⟨hflush.wf, ?_⟩, h.manualClose, ?_, ?_⟩
  · show t'.reader.buffer.Wf
    rw [hflush.eq]
    exact hsend.wf.reader
  · show ∃ fs, t'.sent ++ rest = fs ++ _
    rw [hsent, List.append_assoc, ← hsend.split]
    exact h.last
  · show io.accepted ++ t'.buffered = encoding t'.sent
    rw [hio, hflush.flushed.conserved, hsent, encoding_append, ← h.bytes]
    exact hsend.run.bytes

/-- The course of a call once `close` has been called. -/
theorem sending (h : Closing code s) (order : List StreamID) :
    ∃ t done rest, Sending s false t done rest ∧
      s.pollNext order = pollClosing { s with transport := t, outQueue := rest } := by
  cases s.course h.wf order with
  | @closing t done rest hsend _ hpoll => exact ⟨t, done, rest, hsend, hpoll⟩
  | answered _ hopen | drained _ hopen =>
      exact absurd (hopen.symm.trans h.manualClose) Bool.noConfusion

theorem accepted_pollClose (io : Io) : io.pollClose.2.accepted = io.accepted := by
  simp only [Io.pollClose]
  split <;> rfl

theorem pollNext {answer : Poll (Option YamuxStream)} {order : List StreamID}
    (h : Closing code s) (hpoll : s.pollNext order = some (answer, s')) : Closing code s' := by
  obtain ⟨t, done, rest, hsend, hcourse⟩ := h.sending order
  obtain ⟨result, t', -, hflush, hclosing⟩ := pollClosing_spec hsend.wf
  rw [hcourse, hclosing] at hpoll
  rcases result with - | e | u <;> cases hpoll
  · exact h.flushed hsend hflush rfl
  · exact h.flushed hsend hflush rfl
  · exact h.flushed hsend hflush (accepted_pollClose _)

theorem step {isServer : Bool} {maxWriteBuffer : Nat} (h : Closing code s)
    (hstep : (sessionMachine isServer maxWriteBuffer noClose).step s s') : Closing code s' := by
  obtain ⟨m, -, hguard, hmove⟩ := hstep
  cases m with
  | openStream =>
      obtain rfl := Option.some.inj hmove
      exact ⟨⟨h.wf.writer, h.wf.reader⟩, h.manualClose, h.last, h.bytes⟩
  | close code' => exact absurd rfl (hguard code')
  | handle ref op =>
      obtain rfl := Option.some.inj hmove
      have htransport := handleOp_transport (s := s) ref op
      have hrest : (s.handleOp ref op).manualClose = s.manualClose ∧
          (s.handleOp ref op).outQueue = s.outQueue :=
        ⟨by rw [handleOp_frame], by rw [handleOp_frame]⟩
      refine ⟨⟨?_, ?_⟩, hrest.1.trans h.manualClose, ?_, ?_⟩
      · rw [htransport]
        exact h.wf.writer
      · rw [htransport]
        exact h.wf.reader
      · rw [htransport, hrest.2]
        exact h.last
      · rw [htransport]
        exact h.bytes
  | poll writes reads closes order =>
      have hbehave : Closing code (s.behave writes reads closes) :=
        ⟨⟨h.wf.writer, h.wf.reader⟩, h.manualClose, h.last, h.bytes⟩
      obtain ⟨⟨answer, s₁⟩, hpoll, rfl⟩ := Option.map_eq_some_iff.mp hmove
      exact hbehave.pollNext hpoll

/-- The `GoAway` is the last frame of all. -/
theorem ends (h : Closing code s) (hqueue : s.outQueue = [])
    (hbuffered : s.transport.buffered = []) :
    ∃ front, s.transport.stream.accepted = front ++ (Frame.session (.goAway code)).encode := by
  obtain ⟨fs, hfs⟩ := h.last
  rw [hqueue, List.append_nil] at hfs
  refine ⟨encoding fs, ?_⟩
  have hbytes := h.bytes
  rw [hbuffered, List.append_nil, hfs, encoding_append] at hbytes
  simpa using hbytes

/-- Everything is sent out, unless a frame is refused and then the buffer is
flushed. -/
theorem sentOut_iff (h : Closing code s) (hp : s.transport.writer.buffer.Packed)
    (hno : NoErrors s.transport.stream.writes s.transport.stream.closes) (order : List StreamID) :
    (∀ s', s.pollNext order = some (.ready none, s') → SentOut code s') ↔ ¬ s.LosesQueue := by
  obtain ⟨t, done, rest, hsend, hpoll⟩ := h.sending order
  have hround := hsend.first h.wf hp
  obtain ⟨result, t', hwrite, hflush, hclosing⟩ := pollClosing_spec hsend.wf
  have hafter := hround.flush hsend.wf.writer hwrite
  rw [hpoll, hclosing]
  rcases result with - | e | u
  · -- the flush is blocked, and the call answers `Pending`
    refine iff_of_true (fun s' hs' => (by cases hs')) ?_
    rintro ⟨⟨-, hdone⟩, -⟩
    cases hafter.symm.trans hdone
  · obtain ⟨e', hmem⟩ := hflush.flushed.error e rfl
    exact absurd (hsend.run.writes.subset hmem) (hno.1 e')
  · have hcloses : t'.stream.pollClose.1 = s.transport.stream.pollClose.1 :=
      pollClose_eq (hflush.flushed.closes.trans hsend.run.closes)
    simp only [hcloses]
    cases hready : s.transport.stream.pollClose.1.isReady with
    | false =>
        refine iff_of_true (fun s' hs' => (by cases hs')) ?_
        rintro ⟨-, hclosed⟩
        exact absurd (hready.symm.trans hclosed) Bool.noConfusion
    | true =>
        have hempty := hflush.flushed.done rfl
        have hend := h.flushed hsend hflush (accepted_pollClose t'.stream)
        constructor
        · rintro hall ⟨⟨hleft, -⟩, -⟩
          rw [hround.rest] at hleft
          exact hleft (hall _ rfl).1
        · intro hkept s' hs'
          cases hs'
          have hnone : rest = [] := by
            by_contra hleft
            rw [← hround.rest] at hleft
            exact hkept ⟨⟨hleft, hafter⟩, hready⟩
          exact ⟨hnone, hempty, hend.ends hnone hempty⟩

end Closing

section Close

variable {isServer : Bool} {maxWriteBuffer : Nat} {s₀ s : YamuxSession} {code : UInt32}

theorem closing_of_steps (h₀ : (sessionMachine isServer maxWriteBuffer anything).Reachable s₀)
    (h : (sessionMachine isServer maxWriteBuffer noClose).Steps (s₀.close code) s) :
    Closing code s ∧ s.transport.writer.buffer.Packed := by
  have hreach := sessionMachine_reachable h₀
  have hw := hreach.wf
  have hp := sessionMachine_packed h₀
  refine Run.Machine.Steps.preserves
    (P := fun s => Closing code s ∧ s.transport.writer.buffer.Packed)
    (fun _ _ hs hstep => ⟨hs.1.step hstep, YamuxSession.step_packed hs.1.wf hs.2 hstep⟩) h
    ⟨⟨⟨hw.writer, hw.reader⟩, rfl, ⟨s₀.transport.sent ++ s₀.outQueue, ?_⟩,
      hreach.outbound.bytes⟩, hp⟩
  exact (List.append_assoc _ _ _).symm

/-- Whenever `close` has been called, last with `code`, and however the I/O
object answers without an error: "if `poll_next` answers `Ready(None)`, it has
sent everything out, ending with the `GoAway`" holds exactly when it is not so
that `Pending` keeps a frame out of the full buffer, and then the I/O object
takes the buffer and is closed. -/
theorem close_sends_all_iff (h₀ : (sessionMachine isServer maxWriteBuffer anything).Reachable s₀)
    (h : (sessionMachine isServer maxWriteBuffer noClose).Steps (s₀.close code) s)
    {writes : List (Poll (Except IoError Nat))} (reads : List (Poll (Except IoError Bytes)))
    {closes : List (Poll (Except IoError Unit))} (order : List StreamID)
    (hno : NoErrors writes closes) :
    (∀ s', (s.behave writes reads closes).pollNext order = some (.ready none, s') →
      SentOut code s') ↔ ¬ (s.behave writes reads closes).LosesQueue := by
  obtain ⟨hclosing, hp⟩ := closing_of_steps h₀ h
  have hbehave : Closing code (s.behave writes reads closes) :=
    ⟨⟨hclosing.wf.writer, hclosing.wf.reader⟩, hclosing.manualClose, hclosing.last, hclosing.bytes⟩
  exact hbehave.sentOut_iff hp hno order

end Close

/-- A `SYN` lies in the write buffer, and `close` is called: an I/O object that
takes the `SYN` and the `GoAway` gets all of it, and one that is pending before
it takes the `SYN` does not. -/
theorem close_sends_all_iff_syn :
    ∃ s, (sessionMachine false 12 anything).Reachable s ∧
      (∃ s', ((s.close 7).behave [.ready (.ok 12), .ready (.ok 12)] []
          [.ready (.ok ())]).pollNext [⟨1⟩] = some (.ready none, s') ∧ SentOut 7 s') ∧
      ∃ s', ((s.close 7).behave [.pending, .ready (.ok 12)] [] [.ready (.ok ())]).pollNext [⟨1⟩] =
          some (.ready none, s') ∧ ¬ SentOut 7 s' := by
  have hrun : ((YamuxSession.new Io.new false 12).run
      [.openStream, .poll [] [] [] [⟨1⟩]]).map (fun s =>
        decide (¬ ((s.close 7).behave [.ready (.ok 12), .ready (.ok 12)] []
            [.ready (.ok ())]).LosesQueue ∧
          ((s.close 7).behave [.pending, .ready (.ok 12)] [] [.ready (.ok ())]).LosesQueue) &&
          (((s.close 7).behave [.ready (.ok 12), .ready (.ok 12)] []
            [.ready (.ok ())]).pollNext [⟨1⟩]).any fun r => decide (r.1 = .ready none)) =
      some true := by decide +kernel
  obtain ⟨s, hreach, hs⟩ := exists_of_run false 12 _ hrun
  rw [Bool.and_eq_true, Option.any_eq_true, decide_eq_true_eq] at hs
  obtain ⟨⟨hkept, hloses⟩, ⟨answer, s'⟩, hpoll, hr⟩ := hs
  obtain rfl : answer = .ready none := of_decide_eq_true hr
  refine ⟨s, hreach, ⟨s', hpoll, ?_⟩, ?_⟩
  · exact (close_sends_all_iff hreach .refl [] [⟨1⟩] ⟨by simp, by simp⟩).mpr hkept s' hpoll
  · by_contra hnone
    simp only [not_exists, not_and, not_not] at hnone
    exact (close_sends_all_iff hreach .refl [] [⟨1⟩] ⟨by simp, by simp⟩).mp hnone hloses

/-- With a limit of 12 bytes and a `SYN` in the buffer, the I/O object is
pending once and then takes the `SYN`: the `GoAway` is never sent. -/
theorem close_loses_goAway :
    ¬ ∀ (isServer : Bool) (maxWriteBuffer : Nat) (s₀ s : YamuxSession) (code : UInt32),
      (sessionMachine isServer maxWriteBuffer anything).Reachable s₀ →
      (sessionMachine isServer maxWriteBuffer noClose).Steps (s₀.close code) s →
      ∀ writes reads closes order, NoErrors writes closes → IsOrder s order → ∀ s',
        (s.behave writes reads closes).pollNext order = some (.ready none, s') →
        SentOut code s' := by
  intro hall
  obtain ⟨s₀, s', hreach, horder, hpoll, hleft⟩ := exists_poll_of_run false 12
    [.openStream, .poll [] [] [] [⟨1⟩]]
    (fun s₀ => (s₀.close 0).behave [.pending, .ready (.ok 12)] [] [.ready (.ok ())])
    [⟨1⟩] (.ready none) (p := fun s' => decide (s'.outQueue ≠ [])) (by decide +kernel)
  have hsent := hall false 12 s₀ _ 0 hreach .refl [.pending, .ready (.ok 12)] [] [.ready (.ok ())]
    [⟨1⟩] ⟨by simp, by simp⟩ horder s' hpoll
  exact of_decide_eq_true hleft hsent.1

end YamuxLowMem
