/-
YamuxLowMem/Forecast.lean

What the two send loops of a call of `poll_next` come to, told from the state
before it and the answers of the I/O object.

The first loop is offered the queue as it is; the second one what the first has
refused, and behind it what has come up in between.  `Gate` says of both which
frames are admitted, what is in the write buffer then, and which answers are
left for the flush at the end.
-/
import YamuxLowMem.Admission
import YamuxLowMem.Upcoming

namespace YamuxLowMem

open Async Relation

namespace YamuxSession

/-- What becomes of the queue in the first send loop. -/
def firstRound (s : YamuxSession) : Gate.Passage IoError Frame := s.transport.passage s.outQueue

/-- What becomes in the second send loop of the frames refused in the first,
and of the frames `fs` that have come up. -/
def secondRound (s : YamuxSession) (fs : List Frame) : Gate.Passage IoError Frame :=
  Gate.letIn defaultChunkCapacity s.transport.maxWriterBuffer Frame.size
    (s.firstRound.rest ++ fs) s.firstRound.buffer s.firstRound.answers

/-- How a flush ends that follows the send loop. -/
def flushAfter (p : Gate.Passage IoError Frame) : Gate.Outcome :=
  (Gate.flush defaultChunkCapacity p.answers p.buffer).1

/-- `Pending` keeps a frame out of the full buffer, and then the I/O object
takes all that is in the buffer. -/
def Overtaken (p : Gate.Passage IoError Frame) : Prop := p.rest ≠ [] ∧ flushAfter p = .done

instance (p : Gate.Passage IoError Frame) : Decidable (Overtaken p) :=
  inferInstanceAs (Decidable (_ ∧ _))

variable {s s' s₂ : YamuxSession} {sent sent' : Bool} {t t' : YamuxTransport}
  {done rest done' rest' : List Frame} {order : List StreamID}

/-- A round has come to this. -/
structure Round (p : Gate.Passage IoError Frame) (t : YamuxTransport) (rest : List Frame) :
    Prop where
  rest : p.rest = rest
  buffer : p.buffer = t.gauge
  answers : p.answers = t.stream.writes
  packed : t.writer.buffer.Packed

theorem Round.flush {p : Gate.Passage IoError Frame}
    {result : Poll (Except YamuxTransportError Unit)} (h : Round p t rest)
    (hw : t.writer.buffer.Wf) (hwrite : t.pollWrite = some (result, t')) :
    flushAfter p = YamuxTransport.outcome result := by
  rw [flushAfter, h.answers, h.buffer, (YamuxTransport.pollWrite_gauge hw h.packed hwrite).flush]

theorem pollClose_eq {io io' : Io} (h : io'.closes = io.closes) :
    io'.pollClose.1 = io.pollClose.1 := by
  rw [Io.pollClose, Io.pollClose, h]
  cases io.closes <;> rfl

theorem trySend_handed (hw : s.Wf) (hp : s.transport.writer.buffer.Packed)
    (h : s.trySend sent = some ({ s with transport := t, outQueue := rest }, sent')) :
    Handed s.transport t s.outQueue rest := by
  obtain ⟨⟨t₁, rest₁, sent₁⟩, hloop, heq⟩ := Option.bind_eq_some_iff.mp h
  cases heq
  exact sendLoop_handed hw.writer hp hloop

theorem Sending.first (h : Sending s sent t done rest) (hw : s.Wf)
    (hp : s.transport.writer.buffer.Packed) : Round s.firstRound t rest := by
  obtain ⟨hrest, hbuffer, hanswers, hpacked, -⟩ := trySend_handed hw hp h.send
  exact ⟨hrest, hbuffer, hanswers, hpacked⟩

/-- The second send loop deals with the frames that the first has refused, and
those that have come up. -/
theorem Sending.between (hsend : Sending s false t done rest) (hw : s.Wf)
    (hp : s.transport.writer.buffer.Packed)
    (hread : Reading { s with transport := t, outQueue := rest } none s₂)
    (hnodup : order.Nodup) :
    ∃ fs, s.arriving = some fs ∧ (s₂.drainAll order).outQueue = rest ++ s.upcoming fs order ∧
      (s₂.drainAll order).transport.writer.buffer.Packed ∧ s.secondRound (s.upcoming fs order) =
        (s₂.drainAll order).transport.passage (s₂.drainAll order).outQueue := by
  obtain ⟨hrest, hbuffer, hanswers, hpacked⟩ := hsend.first hw hp
  obtain ⟨fs, hfs, hqueue, -⟩ := hsend.upcoming hread hnodup
  obtain ⟨htransport, -⟩ := s₂.drainAll_frame order
  have hwriter : (s₂.drainAll order).transport.writer = t.writer := by
    rw [htransport]
    exact hread.inbound.writer
  have hlimit : (s₂.drainAll order).transport.maxWriterBuffer = s.transport.maxWriterBuffer := by
    rw [htransport]
    exact hread.inbound.maxWriterBuffer.trans hsend.run.maxWriterBuffer
  have hwrites : (s₂.drainAll order).transport.stream.writes = t.stream.writes := by
    rw [htransport]
    exact hread.inbound.writes
  refine ⟨fs, hfs, hqueue, hwriter ▸ hpacked, ?_⟩
  rw [secondRound, YamuxTransport.passage, YamuxTransport.gauge, hlimit, hwriter, hwrites,
    hqueue, hrest, hbuffer, hanswers]
  rfl

theorem Sending.second (hsend : Sending s false t done rest) (hw : s.Wf)
    (hp : s.transport.writer.buffer.Packed)
    (hread : Reading { s with transport := t, outQueue := rest } none s₂) (hnodup : order.Nodup)
    (hsend' : Sending (s₂.drainAll order) sent t' done' rest') :
    ∃ fs, s.arriving = some fs ∧ rest ++ s.upcoming fs order = done' ++ rest' ∧
      Round (s.secondRound (s.upcoming fs order)) t' rest' := by
  obtain ⟨fs, hfs, hqueue, hpacked, hround⟩ := hsend.between hw hp hread hnodup
  have hw₂ := PollStep.steps_wf (s₂.drainAll_steps order) hread.wf
  obtain ⟨hrest', hbuffer', hanswers', hpacked', -⟩ := trySend_handed hw₂ hpacked hsend'.send
  refine ⟨fs, hfs, hqueue ▸ hsend'.split, ?_⟩
  rw [hround]
  exact ⟨hrest', hbuffer', hanswers', hpacked'⟩

end YamuxSession

/-! ### Runs -/

theorem YamuxSession.pollNext_packed {s s' : YamuxSession} {order : List StreamID}
    {answer : Poll (Option YamuxStream)} (hw : s.Wf) (hp : s.transport.writer.buffer.Packed)
    (h : s.pollNext order = some (answer, s')) : s'.transport.writer.buffer.Packed := by
  cases s.course hw order with
  | closing hsend _ hpoll =>
      have hround := hsend.first hw hp
      obtain ⟨result, t', hwrite, -, hclosing⟩ := pollClosing_spec hsend.wf
      have hgauged := YamuxTransport.pollWrite_gauge hsend.wf.writer hround.packed hwrite
      rw [hpoll, hclosing] at h
      rcases result with - | e | u <;> cases h <;> exact hgauged.packed
  | answered hsend _ hread hpoll =>
      cases hpoll.symm.trans h
      rw [hread.inbound.writer]
      exact (hsend.first hw hp).packed
  | @drained t t₂ done rest done' rest' s₂ hsend _ hread hsend' hpoll =>
      have hround := hsend.first hw hp
      have hwf₃ := PollStep.steps_wf (s₂.drainAll_steps order) hread.wf
      have hp₃ : (s₂.drainAll order).transport.writer.buffer.Packed := by
        rw [(s₂.drainAll_frame order).1, hread.inbound.writer]
        exact hround.packed
      have hhanded := trySend_handed hwf₃ hp₃ hsend'.send
      rw [hpoll] at h
      cases hsent : (false || !done.isEmpty) || !done'.isEmpty with
      | false =>
          rw [hsent] at h
          cases h
          exact hhanded.packed
      | true =>
          obtain ⟨result, t₃, hwrite, -, hspec⟩ := flushSent_spec hsend'.wf
          have hgauged := YamuxTransport.pollWrite_gauge hsend'.wf.writer hhanded.packed hwrite
          rw [hsent, hspec] at h
          rcases result with - | e | u <;> cases h <;> exact hgauged.packed

theorem YamuxSession.step_packed {isServer : Bool} {maxWriteBuffer : Nat} {guard : Guard}
    {s s' : YamuxSession} (hw : s.Wf) (hp : s.transport.writer.buffer.Packed)
    (hstep : (sessionMachine isServer maxWriteBuffer guard).step s s') :
    s'.transport.writer.buffer.Packed := by
  obtain ⟨m, -, -, hmove⟩ := hstep
  cases m with
  | openStream | close code =>
      cases hmove
      exact hp
  | handle ref op =>
      cases hmove
      rw [handleOp_transport]
      exact hp
  | poll writes reads closes order =>
      obtain ⟨⟨answer, s₁⟩, hpoll, rfl⟩ := Option.map_eq_some_iff.mp hmove
      exact YamuxSession.pollNext_packed (s := s.behave writes reads closes)
        ⟨hw.writer, hw.reader⟩ hp hpoll

/-- In every run the write buffer is filled block by block. -/
theorem sessionMachine_packed {isServer : Bool} {maxWriteBuffer : Nat} {guard : Guard}
    {s : YamuxSession} (h : (sessionMachine isServer maxWriteBuffer guard).Reachable s) :
    s.transport.writer.buffer.Packed := by
  refine h.invariant_with (fun _ hs => (sessionMachine_reachable hs).wf) ?_ ?_
  · rintro s rfl
    exact ChainedChunkBufferWriter.packed_new
  · intro s s' hw hp hstep
    exact YamuxSession.step_packed hw hp hstep

end YamuxLowMem
