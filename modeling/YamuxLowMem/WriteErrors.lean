/-
YamuxLowMem/WriteErrors.lean

What an error of `poll_write` does to a call of `poll_next`.

`start_send`, `poll_flush` and `poll_close` are looked at properly: after an
error the call answers `Ready(None)`.  But the two send loops ask `poll_ready`
only whether it `is_ready()`, and an error is ready too.  So a frame is taken
out of the queue after the error, and the call goes on as if nothing had
happened.  Apart from errors in these loops, an error ends the call.
-/
import YamuxLowMem.Forecast

namespace YamuxLowMem

open Async Relation

/-! ### Errors among the answers of `poll_write` -/

/-- One of the answers is an error. -/
def erroneous (answers : List (Poll (Except IoError Nat))) : Bool :=
  answers.any fun
    | .ready (.error _) => true
    | _ => false

theorem erroneous_append (as bs : List (Poll (Except IoError Nat))) :
    erroneous (as ++ bs) = (erroneous as || erroneous bs) := List.any_append

namespace YamuxTransport

/-- A `poll_write` of this call has returned an error. -/
def failed (t : YamuxTransport) : Bool := erroneous t.stream.calls

/-- The result is an error. -/
def isError : Poll (Except YamuxTransportError Unit) → Bool
  | .ready (.error _) => true
  | _ => false

variable {t t' : YamuxTransport}

theorem isError_eq (result : Poll (Except YamuxTransportError Unit)) :
    isError result = decide (outcome result = .failed) := by
  rcases result with - | e | u <;> rfl

theorem isError_of_not_ready {result : Poll (Except YamuxTransportError Unit)}
    (h : result.isReady = false) : isError result = false := by
  cases result with
  | pending => rfl
  | ready r => cases h

/-- The loop of `poll_write` stops at the first error, and reports it. -/
theorem pollWriteLoop_failed {fuel : Nat} {io io' : Io} {w w' : ChainedChunkBufferWriter}
    {result : Poll (Except YamuxTransportError Unit)}
    (h : pollWriteLoop fuel io w = some (result, io', w')) :
    erroneous io'.calls = (erroneous io.calls || isError result) := by
  induction fuel generalizing io w with
  | zero => cases h
  | succ fuel ih =>
      rw [pollWriteLoop] at h
      obtain ⟨front, -, h⟩ := Option.bind_eq_some_iff.mp h
      cases front with
      | none =>
          cases h
          exact (Bool.or_false _).symm
      | some front =>
          have hcalls : (io.pollWrite front).2.calls = io.calls ++ [(io.pollWrite front).1] := by
            unfold Io.pollWrite
            split <;> rfl
          cases hanswer : io.pollWrite front with
          | mk answer io₁ =>
              rw [hanswer] at hcalls
              simp only [hanswer] at h
              replace hcalls := congrArg erroneous hcalls
              rw [erroneous_append] at hcalls
              rcases answer with - | e | written
              · cases h
                exact hcalls
              · cases h
                exact hcalls
              · obtain ⟨w₁, -, h⟩ := Option.bind_eq_some_iff.mp h
                rw [ih h, hcalls]
                exact congrArg (· || isError result) (Bool.or_false _)

theorem pollWrite_failed {result : Poll (Except YamuxTransportError Unit)}
    (h : t.pollWrite = some (result, t')) : t'.failed = (t.failed || isError result) := by
  obtain ⟨⟨result', io, w⟩, hloop, heq⟩ := Option.bind_eq_some_iff.mp h
  cases heq
  exact pollWriteLoop_failed hloop

/-- `poll_ready` reports the error. -/
theorem pollReady_failed {ready : Poll (Except YamuxTransportError Unit)}
    (h : t.pollReady = some (ready, t')) : t'.failed = (t.failed || isError ready) := by
  obtain ⟨⟨result, t₁⟩, hwrite, h⟩ := Option.bind_eq_some_iff.mp h
  have hfailed := pollWrite_failed hwrite
  cases result with
  | ready result =>
      cases h
      exact hfailed
  | pending =>
      simp only at h
      split at h <;> cases h <;> exact hfailed

theorem startSend_failed {out : Frame} (h : t.startSend out = some t') : t'.failed = t.failed := by
  obtain ⟨buffer, -, heq⟩ := Option.bind_eq_some_iff.mp h
  cases heq
  rfl

end YamuxTransport

/-! ### Frames taken out of the queue -/

/-- A frame is taken out of the queue: what `poll_ready` has answered, and how
the calls of `poll_write` have been answered up to then. -/
structure Taking where
  ready : Poll (Except YamuxTransportError Unit)
  calls : List (Poll (Except IoError Nat))

/-- Neither is an error. -/
def Taking.isClean (x : Taking) : Bool := !YamuxTransport.isError x.ready && !erroneous x.calls

namespace YamuxSession

/-- The frames that the send loop takes out of the queue. -/
def takings (t : YamuxTransport) : List Frame → List Taking
  | [] => []
  | out :: outQueue =>
      match t.pollReady with
      | none => []
      | some (ready, t) =>
          if ready.isReady then
            ⟨ready, t.stream.calls⟩ :: match t.startSend out with
              | none => []
              | some t => takings t outQueue
          else []

/-- The frames that a call of `poll_next` takes out of the queue. -/
def pollTakings (s : YamuxSession) (order : List StreamID) : List Taking :=
  takings s.transport s.outQueue ++
    match s.trySend false with
    | none => []
    | some (s, _) =>
        if s.manualClose then []
        else
          match s.inboundLoop (s.inboundWork + 1) with
          | some (none, s) => takings (s.drainAll order).transport (s.drainAll order).outQueue
          | _ => []

/-- After an error of `poll_write` no frame is taken out of the queue, and the
call answers `Ready(None)`; no frame is taken out on an error of `poll_ready`. -/
structure EndsOnError (s : YamuxSession) (order : List StreamID) : Prop where
  taken : ∀ x ∈ s.pollTakings order, x.isClean = true
  answer : ∀ answer s', s.pollNext order = some (answer, s') → s'.transport.failed = true →
    answer = .ready none

/-- An error is among the answers that the I/O object gives while there is a frame
to hand over: of those that are queued, or of those that come up in the call. -/
def LoopError (s : YamuxSession) (order : List StreamID) : Prop :=
  s.firstRound.failed = true ∨
    s.manualClose = false ∧
      ∃ fs ∈ s.arriving, (s.secondRound (s.upcoming fs order)).failed = true

instance (s : YamuxSession) (order : List StreamID) : Decidable (s.LoopError order) :=
  inferInstanceAs (Decidable (_ ∨ _))

/-! ### One send loop -/

variable {t t' : YamuxTransport} {sent sent' : Bool} {queue rest : List Frame}

/-- One entry for every frame that is gone. -/
theorem takings_length (h : sendLoop t sent queue = some (t', rest, sent')) :
    (takings t queue).length + rest.length = queue.length := by
  induction queue generalizing t sent with
  | nil =>
      cases h
      rfl
  | cons out queue ih =>
      obtain ⟨⟨ready, t₁⟩, hready, h⟩ := Option.bind_eq_some_iff.mp h
      simp only [takings, hready]
      cases hr : ready.isReady with
      | false =>
          simp only [hr] at h
          cases h
          exact Nat.zero_add _
      | true =>
          simp only [hr, if_true] at h ⊢
          obtain ⟨t₂, hsend, h⟩ := Option.bind_eq_some_iff.mp h
          simp only [hsend, List.length_cons]
          have hrest := ih h
          omega

/-- The loop meets the errors that the sizes and the answers foretell. -/
theorem sendLoop_failed (hw : t.writer.buffer.Wf) (hp : t.writer.buffer.Packed)
    (h : sendLoop t sent queue = some (t', rest, sent')) :
    t'.failed = (t.failed || (t.passage queue).failed) := by
  induction queue generalizing t sent with
  | nil =>
      cases h
      exact (Bool.or_false _).symm
  | cons out queue ih =>
      obtain ⟨⟨ready, t₁⟩, hready, h⟩ := Option.bind_eq_some_iff.mp h
      have hfailed := YamuxTransport.pollReady_failed hready
      cases hr : ready.isReady with
      | false =>
          obtain ⟨-, -, hpass⟩ := YamuxTransport.passage_refused queue hw hp hready hr
          simp only [hr] at h
          cases h
          rw [hfailed, hpass, YamuxTransport.isError_of_not_ready hr]
      | true =>
          simp only [hr, if_true] at h
          obtain ⟨t₂, hsend, h⟩ := Option.bind_eq_some_iff.mp h
          obtain ⟨hw₂, hp₂, -, hpass⟩ :=
            YamuxTransport.passage_admitted queue hw hp hready hr hsend
          rw [ih hw₂ hp₂ h, hpass, YamuxTransport.startSend_failed hsend, hfailed,
            ← YamuxTransport.isError_eq, Bool.or_assoc]

/-- An error in the loop is one of `poll_ready`, and a frame is taken out on it. -/
theorem sendLoop_taken (hw : t.writer.buffer.Wf) (hp : t.writer.buffer.Packed)
    (h : sendLoop t sent queue = some (t', rest, sent')) (hclean : t.failed = false) :
    (∀ x ∈ takings t queue, x.isClean = true) ↔ (t.passage queue).failed = false := by
  induction queue generalizing t sent with
  | nil => exact iff_of_true (fun x hx => (by cases hx)) rfl
  | cons out queue ih =>
      obtain ⟨⟨ready, t₁⟩, hready, h⟩ := Option.bind_eq_some_iff.mp h
      have hfailed₁ := YamuxTransport.pollReady_failed hready
      rw [hclean, Bool.false_or] at hfailed₁
      simp only [takings, hready]
      cases hr : ready.isReady with
      | false =>
          -- a refusal is not an error
          obtain ⟨-, -, hpass⟩ := YamuxTransport.passage_refused queue hw hp hready hr
          rw [hpass]
          exact iff_of_true (fun x hx => (by cases hx)) rfl
      | true =>
          simp only [hr, if_true] at h ⊢
          obtain ⟨t₂, hsend, h⟩ := Option.bind_eq_some_iff.mp h
          obtain ⟨hw₂, hp₂, -, hpass⟩ :=
            YamuxTransport.passage_admitted queue hw hp hready hr hsend
          have hfailed₂ := YamuxTransport.startSend_failed hsend
          simp only [hsend, List.forall_mem_cons]
          rw [hpass, ← YamuxTransport.isError_eq]
          cases herror : YamuxTransport.isError ready with
          | true =>
              refine iff_of_false ?_ Bool.noConfusion
              rintro ⟨hfirst, -⟩
              rw [Taking.isClean, herror] at hfirst
              cases hfirst
          | false =>
              refine Iff.trans (and_iff_right ?_)
                (ih hw₂ hp₂ h (hfailed₂.trans (hfailed₁.trans herror)))
              rw [Taking.isClean, herror]
              show (!YamuxTransport.failed t₁) = true
              rw [hfailed₁, herror]
              rfl

/-! ### A whole call -/

variable {s s' : YamuxSession} {order : List StreamID}

theorem trySend_failed (hw : s.Wf) (hp : s.transport.writer.buffer.Packed)
    (h : s.trySend sent = some (s', sent')) (hclean : s.transport.failed = false) :
    s'.transport.failed = (s.transport.passage s.outQueue).failed := by
  obtain ⟨⟨t, rest, sent₁⟩, hloop, heq⟩ := Option.bind_eq_some_iff.mp h
  cases heq
  rw [← Bool.false_or (YamuxTransport.passage _ _).failed, ← hclean]
  exact sendLoop_failed hw.writer hp hloop

theorem trySend_taken (hw : s.Wf) (hp : s.transport.writer.buffer.Packed)
    (h : s.trySend sent = some (s', sent')) (hclean : s.transport.failed = false) :
    (∀ x ∈ takings s.transport s.outQueue, x.isClean = true) ↔
      (s.transport.passage s.outQueue).failed = false := by
  obtain ⟨⟨t, rest, sent₁⟩, hloop, heq⟩ := Option.bind_eq_some_iff.mp h
  cases heq
  exact sendLoop_taken hw.writer hp hloop hclean

/-- Receiving and draining do not write. -/
theorem drainAll_failed (h : s'.transport.stream.calls = s.transport.stream.calls)
    (hclean : s.transport.failed = false) (order : List StreamID) :
    (s'.drainAll order).transport.failed = false := by
  rw [(s'.drainAll_frame order).1, YamuxTransport.failed, h]
  exact hclean

/-- Closing the transport after an error of `poll_write` answers `Ready(None)`. -/
theorem pollClosing_error (hw : s.Wf) {answer : Poll (Option YamuxStream)}
    (hclean : s.transport.failed = false) (h : s.pollClosing = some (answer, s'))
    (hfailed : s'.transport.failed = true) : answer = .ready none := by
  obtain ⟨result, t, hwrite, -, hclosing⟩ := pollClosing_spec hw
  have hresult := YamuxTransport.pollWrite_failed hwrite
  rw [hclean, Bool.false_or] at hresult
  rw [hclosing] at h
  rcases result with - | e | u
  · cases h
    exact absurd (hfailed.symm.trans hresult) Bool.true_eq_false.mp
  · cases h
    rfl
  · cases h
    have hcalls : t.stream.pollClose.2.calls = t.stream.calls := by
      simp only [Io.pollClose]
      split <;> rfl
    have hsame := hfailed.symm.trans (congrArg erroneous hcalls)
    exact absurd (hsame.trans hresult) Bool.true_eq_false.mp

/-- So does the flush at the end. -/
theorem flushSent_error (hw : s.Wf) {answer : Poll (Option YamuxStream)}
    (hclean : s.transport.failed = false) (h : s.flushSent sent = some (answer, s'))
    (hfailed : s'.transport.failed = true) : answer = .ready none := by
  cases sent with
  | false =>
      cases h
      exact absurd (hfailed.symm.trans hclean) Bool.true_eq_false.mp
  | true =>
      obtain ⟨result, t, hwrite, -, hsent⟩ := flushSent_spec hw
      have hresult := YamuxTransport.pollWrite_failed hwrite
      rw [hclean, Bool.false_or] at hresult
      rw [hsent] at h
      rcases result with - | e | u
      · cases h
        exact absurd (hfailed.symm.trans hresult) Bool.true_eq_false.mp
      · cases h
        rfl
      · cases h
        exact absurd (hfailed.symm.trans hresult) Bool.true_eq_false.mp

section Ways

variable {s₁ s₂ : YamuxSession} {answer : Poll (Option YamuxStream)}

theorem pollTakings_closing (hsend : s.trySend false = some (s₁, sent))
    (hclose : s₁.manualClose = true) : s.pollTakings order = takings s.transport s.outQueue := by
  simp [pollTakings, hsend, hclose]

theorem pollTakings_answer (hsend : s.trySend false = some (s₁, sent))
    (hclose : s₁.manualClose = false)
    (hloop : s₁.inboundLoop (s₁.inboundWork + 1) = some (some answer, s₂)) :
    s.pollTakings order = takings s.transport s.outQueue := by
  simp [pollTakings, hsend, hclose, hloop]

theorem pollTakings_drain (hsend : s.trySend false = some (s₁, sent))
    (hclose : s₁.manualClose = false)
    (hloop : s₁.inboundLoop (s₁.inboundWork + 1) = some (none, s₂)) :
    s.pollTakings order = takings s.transport s.outQueue ++
      takings (s₂.drainAll order).transport (s₂.drainAll order).outQueue := by
  simp [pollTakings, hsend, hclose, hloop]

end Ways

/-- The frames taken out in a call are clean exactly when there is no error while
there is a frame to hand over. -/
theorem pollTakings_iff (hw : s.Wf) (hp : s.transport.writer.buffer.Packed)
    (hnodup : order.Nodup) (hclean : s.transport.failed = false) :
    (∀ x ∈ s.pollTakings order, x.isClean = true) ↔ ¬ s.LoopError order := by
  have hfirst : ∀ {t done rest}, Sending s false t done rest →
      ((∀ x ∈ takings s.transport s.outQueue, x.isClean = true) ↔ s.firstRound.failed = false) :=
    fun hsend => trySend_taken hw hp hsend.send hclean
  rw [LoopError, not_or, Bool.not_eq_true]
  cases s.course hw order with
  | closing hsend hclose _ =>
      -- a closing session has the first loop only
      rw [pollTakings_closing hsend.send hclose, hfirst hsend]
      exact (and_iff_left fun h => absurd (hclose.symm.trans h.1) Bool.noConfusion).symm
  | answered hsend hclose hread _ =>
      -- so has a call that is ended by a frame
      rw [pollTakings_answer hsend.send hclose hread.loop, hfirst hsend,
        hsend.arriving_none hread]
      exact (and_iff_left (by rintro ⟨-, fs, hfs, -⟩; cases hfs)).symm
  | @drained t t' done rest done' rest' s₂ hsend hclose hread hsend' _ =>
      obtain ⟨fs, hfs, -, hp₂, hround⟩ := hsend.between hw hp hread hnodup
      have hw₂ := PollStep.steps_wf (s₂.drainAll_steps order) hread.wf
      rw [pollTakings_drain hsend.send hclose hread.loop]
      simp only [List.mem_append, or_imp, forall_and]
      rw [hfirst hsend]
      refine and_congr_right fun hnone => ?_
      have hclean₁ : t.failed = false := (trySend_failed hw hp hsend.send hclean).trans hnone
      rw [trySend_taken hw₂ hp₂ hsend'.send (drainAll_failed hread.inbound.calls hclean₁ order),
        ← hround]
      simp [hclose, hfs]

/-- An error outside the send loops ends the call. -/
theorem answer_of_not_loopError (hw : s.Wf) (hp : s.transport.writer.buffer.Packed)
    (hnodup : order.Nodup) (hclean : s.transport.failed = false) (hnot : ¬ s.LoopError order)
    {answer : Poll (Option YamuxStream)}
    (hpoll : s.pollNext order = some (answer, s')) (hfailed : s'.transport.failed = true) :
    answer = .ready none := by
  rw [LoopError, not_or, Bool.not_eq_true] at hnot
  have hfirst : ∀ {t done rest}, Sending s false t done rest → t.failed = false :=
    fun hsend => (trySend_failed hw hp hsend.send hclean).trans hnot.1
  cases s.course hw order with
  | closing hsend _ hclosing =>
      exact pollClosing_error hsend.wf (hfirst hsend) (hclosing.symm.trans hpoll) hfailed
  | answered hsend _ hread hanswer =>
      cases hanswer.symm.trans hpoll
      -- receiving writes nothing
      have hclean' := (congrArg erroneous hread.inbound.calls).trans (hfirst hsend)
      cases hclean'.symm.trans hfailed
  | @drained t t' done rest done' rest' s₂ hsend hclose hread hsend' hflush =>
      obtain ⟨fs, hfs, -, hp₂, hround⟩ := hsend.between hw hp hread hnodup
      have hw₂ := PollStep.steps_wf (s₂.drainAll_steps order) hread.wf
      have hclean₂ := drainAll_failed hread.inbound.calls (hfirst hsend) order
      refine flushSent_error hsend'.wf ?_ (hflush.symm.trans hpoll) hfailed
      rw [trySend_failed hw₂ hp₂ hsend'.send hclean₂, ← hround, ← Bool.not_eq_true]
      exact fun hlate => hnot.2 ⟨hclose, fs, hfs, hlate⟩

end YamuxSession

/-- In every reachable state, whatever the I/O object answers: "after an error of
`poll_write` no frame is taken out of the queue, on an error of `poll_ready`
none either, and the call answers `Ready(None)`" holds exactly when none of the
answers given while there is a frame to hand over is an error. -/
theorem write_errors_end_iff {isServer : Bool} {maxWriteBuffer : Nat} {s : YamuxSession}
    (h : (sessionMachine isServer maxWriteBuffer anything).Reachable s)
    (writes : List (Poll (Except IoError Nat))) (reads : List (Poll (Except IoError Bytes)))
    (closes : List (Poll (Except IoError Unit))) {order : List StreamID}
    (horder : IsOrder s order) :
    (s.behave writes reads closes).EndsOnError order ↔
      ¬ (s.behave writes reads closes).LoopError order := by
  have hw := (sessionMachine_reachable h).wf
  have hp := sessionMachine_packed h
  have hw' : (s.behave writes reads closes).Wf := ⟨hw.writer, hw.reader⟩
  have htaken := YamuxSession.pollTakings_iff hw' hp horder.1 rfl
  constructor
  · intro hends
    exact htaken.mp hends.taken
  · intro hnot
    exact ⟨htaken.mpr hnot, fun _ _ =>
      YamuxSession.answer_of_not_loopError hw' hp horder.1 rfl hnot⟩

/-- A stream is opened and polled, so that the `SYN` is in the write buffer, and
the application writes a byte. -/
def writeBehindSyn : List Move :=
  [.openStream, .poll [] [] [] [⟨1⟩], .handle (.registered ⟨1⟩) (.write [0])]

/-- The connection breaks: at once, or only when both frames of the write have been
handed over.  In the second case the call ends with it, and not in the first. -/
theorem write_errors_end_iff_written :
    ∃ s, (sessionMachine false 100 anything).Reachable s ∧
      (∃ s', (s.behave [.ready (.ok 12), .pending, .ready (.error "broken pipe")] [] []).pollNext
          [⟨1⟩] = some (.ready none, s') ∧ s'.transport.failed = true ∧
        (s.behave [.ready (.ok 12), .pending, .ready (.error "broken pipe")] [] []).EndsOnError
          [⟨1⟩]) ∧
      ¬ (s.behave [.ready (.error "broken pipe")] [] []).EndsOnError [⟨1⟩] := by
  have hrun : ((YamuxSession.new Io.new false 100).run writeBehindSyn).map (fun s =>
      decide (IsOrder s [⟨1⟩] ∧ ¬ (s.behave [.ready (.ok 12), .pending,
          .ready (.error "broken pipe")] [] []).LoopError [⟨1⟩] ∧
        (s.behave [.ready (.error "broken pipe")] [] []).LoopError [⟨1⟩]) &&
        ((s.behave [.ready (.ok 12), .pending, .ready (.error "broken pipe")] [] []).pollNext
          [⟨1⟩]).any fun r => decide (r.1 = .ready none) && r.2.transport.failed) =
      some true := by decide +kernel
  obtain ⟨s, hreach, hs⟩ := exists_of_run false 100 _ hrun
  rw [Bool.and_eq_true, Option.any_eq_true, decide_eq_true_eq] at hs
  obtain ⟨⟨horder, hnot, herror⟩, ⟨answer, s'⟩, hpoll, hr⟩ := hs
  obtain ⟨hanswer, hfailed⟩ := Bool.and_eq_true _ _ ▸ hr
  obtain rfl : answer = .ready none := of_decide_eq_true hanswer
  refine ⟨s, hreach, ⟨s', hpoll, hfailed, ?_⟩, ?_⟩
  · exact (write_errors_end_iff hreach _ _ _ horder).mpr hnot
  · exact fun hends => (write_errors_end_iff hreach _ _ _ horder).mp hends herror

/-- The connection breaks, and the next call answers `Pending`. -/
theorem write_error_unnoticed :
    ¬ ∀ (isServer : Bool) (maxWriteBuffer : Nat) (s : YamuxSession),
      (sessionMachine isServer maxWriteBuffer anything).Reachable s →
      ∀ writes reads closes order, IsOrder s order →
        (s.behave writes reads closes).EndsOnError order := by
  intro hall
  obtain ⟨s, s', hreach, horder, hpoll, hfailed⟩ := exists_poll_of_run false 100 writeBehindSyn
    (fun s => s.behave [.ready (.error "broken pipe")] [] []) [⟨1⟩] .pending
    (p := fun s' => s'.transport.failed) (by decide +kernel)
  have hends := hall false 100 s hreach [.ready (.error "broken pipe")] [] [] [⟨1⟩] horder
  cases hends.answer _ _ hpoll hfailed

end YamuxLowMem
