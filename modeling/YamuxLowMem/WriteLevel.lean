/-
YamuxLowMem/WriteLevel.lean

How much the transport's write buffer holds.

The buffer only grows when a frame is handed over.  Without write errors that
happens where `poll_ready` has just emptied the buffer or found it below the
limit, and no frame is larger than a chunk; so one chunk above the limit is
never exceeded, inside a call of `poll_next` or between the calls.

A call is taken apart once into its phases (`Phase`), and what each phase keeps
the call keeps.
-/
import YamuxLowMem.OutboundMemory

namespace YamuxLowMem

open Async Relation

/-! ### The phases of a call -/

namespace YamuxSession

/-- What a call of `poll_next` does, one thing after the other. -/
inductive Phase (order : List StreamID) : YamuxSession → YamuxSession → Prop where
  | send {s s' : YamuxSession} {sent sent' : Bool} :
      s.trySend sent = some (s', sent') → Phase order s s'
  | flush {s : YamuxSession} {t : YamuxTransport} {result} :
      YamuxTransport.Flush result s.transport t → Phase order s { s with transport := t }
  | closeIo {s : YamuxSession} : Phase order s { s with
      transport := { s.transport with stream := s.transport.stream.pollClose.2 } }
  | inbound {s s' : YamuxSession} : Inbound s s' → ReflTransGen PollStep s s' → Phase order s s'
  | drain {s : YamuxSession} : Phase order s (s.drainAll order)

variable {s s' : YamuxSession} {order : List StreamID}

theorem trySend_steps {sent sent' : Bool} (hw : s.Wf) (h : s.trySend sent = some (s', sent')) :
    ReflTransGen PollStep s s' := by
  obtain ⟨t, done, rest, hsend, -, -, hsteps⟩ := trySend_spec hw sent
  cases hsend.symm.trans h
  exact hsteps

/-- A phase is made of moves, so what holds along moves holds along phases. -/
theorem Phase.steps (hw : s.Wf) (h : Phase order s s') : ReflTransGen PollStep s s' := by
  cases h with
  | send h => exact trySend_steps hw h
  | flush h => exact .single (.flush h)
  | closeIo => exact .single .closeIo
  | inbound _ h => exact h
  | drain => exact s.drainAll_steps order

/-- The close path flushes, and closes the I/O object when that is done. -/
theorem pollClosing_phases (hw : s.Wf) {answer : Poll (Option YamuxStream)}
    (h : s.pollClosing = some (answer, s')) : ReflTransGen (Phase order) s s' := by
  obtain ⟨result, t, -, hflush, hclosing⟩ := pollClosing_spec hw
  have hphase : Phase order s { s with transport := t } := .flush hflush
  rw [hclosing] at h
  rcases result with - | e | u
  · cases h
    exact .single hphase
  · cases h
    exact .single hphase
  · cases h
    exact (ReflTransGen.single hphase).tail .closeIo

/-- The last flush is a phase, if anything was sent. -/
theorem flushSent_phases (hw : s.Wf) {sent : Bool} {answer : Poll (Option YamuxStream)}
    (h : s.flushSent sent = some (answer, s')) : ReflTransGen (Phase order) s s' := by
  cases sent with
  | false =>
      cases h
      exact .refl
  | true =>
      obtain ⟨result, t, -, hflush, hsent⟩ := flushSent_spec hw
      have hphase : Phase order s { s with transport := t } := .flush hflush
      rw [hsent] at h
      rcases result with - | e | u <;>
        · cases h
          exact .single hphase

/-- The states in which the send loops of a call begin. -/
inductive LoopStart (s : YamuxSession) (order : List StreamID) : YamuxSession → Prop where
  | first : LoopStart s order s
  | second {s₁ s₂ : YamuxSession} {sent : Bool} :
      s.trySend false = some (s₁, sent) → s₁.inboundLoop (s₁.inboundWork + 1) = some (none, s₂) →
      LoopStart s order (s₂.drainAll order)

/-- All that comes in during a call is one phase, which leaves the write buffer alone. -/
theorem inboundLoop_phase {answer : Option (Poll (Option YamuxStream))} (hw : s.Wf)
    (h : s.inboundLoop (s.inboundWork + 1) = some (answer, s')) : Phase order s s' := by
  obtain ⟨answer', s₂, hread⟩ := exists_reading hw
  cases hread.loop.symm.trans h
  exact .inbound hread.inbound hread.steps

/-- Both send loops begin after a number of phases. -/
theorem LoopStart.phases (hw : s.Wf) (h : LoopStart s order s') :
    ReflTransGen (Phase order) s s' := by
  cases h with
  | first => exact .refl
  | @second s₁ s₂ sent hsend hloop =>
      have hw₁ := PollStep.steps_wf (trySend_steps hw hsend) hw
      exact ((ReflTransGen.single (.send hsend)).tail (inboundLoop_phase hw₁ hloop)).tail .drain

/-- A call is a number of phases. -/
theorem pollNext_phases (hw : s.Wf) {answer : Poll (Option YamuxStream)}
    (h : s.pollNext order = some (answer, s')) : ReflTransGen (Phase order) s s' := by
  cases s.course hw order with
  | closing hsend _ hclosing =>
      exact ReflTransGen.head (.send hsend.send)
        (pollClosing_phases hsend.wf (hclosing.symm.trans h))
  | answered hsend _ hread hanswer =>
      cases hanswer.symm.trans h
      exact (ReflTransGen.single (.send hsend.send)).tail (.inbound hread.inbound hread.steps)
  | @drained _ _ _ _ _ _ s₂ hsend _ hread hsend' hflush =>
      have hdrained : ReflTransGen (Phase order) s (s₂.drainAll order) :=
        ((ReflTransGen.single (.send hsend.send)).tail
          (.inbound hread.inbound hread.steps)).tail .drain
      refine (hdrained.tail (.send hsend'.send)).trans ?_
      exact flushSent_phases hsend'.wf (hflush.symm.trans h)

end YamuxSession

/-! ### The frames handed over -/

/-- `poll_ready` reports no error that the I/O object does not. -/
theorem YamuxTransport.pollReady_clean {t t' : YamuxTransport}
    {ready : Poll (Except YamuxTransportError Unit)} (hw : t.writer.buffer.Wf)
    (hno : ∀ e, .ready (.error e) ∉ t.stream.writes) (h : t.pollReady = some (ready, t')) :
    isError ready = false := by
  obtain ⟨⟨result, t₁⟩, hwrite, h⟩ := Option.bind_eq_some_iff.mp h
  obtain ⟨result', t₂, hwrite', hflush⟩ := pollWrite_spec hw
  cases hwrite.symm.trans hwrite'
  rcases result with - | e | u
  · simp only at h
    split at h <;> cases h <;> rfl
  · obtain ⟨e', he'⟩ := hflush.flushed.error e rfl
    exact absurd he' (hno e')
  · cases h
    rfl

namespace YamuxSession

/-- Without errors of the I/O object no frame is taken out of the queue on one. -/
theorem takings_noErrors {t : YamuxTransport} (queue : List Frame) (hw : t.writer.buffer.Wf)
    (hno : ∀ e, .ready (.error e) ∉ t.stream.writes) :
    ∀ x ∈ takings t queue, YamuxTransport.isError x.ready = false := by
  induction queue generalizing t with
  | nil => exact fun x hx => (by cases hx)
  | cons out queue ih =>
      obtain ⟨ready, result, t₁, hready, hflush, -⟩ := YamuxTransport.pollReady_spec hw
      have hclean := YamuxTransport.pollReady_clean hw hno hready
      simp only [takings, hready]
      split
      · obtain ⟨t₂, hsend, hw₂, -, heq₂⟩ := YamuxTransport.startSend_spec hflush.wf out
        simp only [hsend, List.forall_mem_cons]
        refine ⟨hclean, ih hw₂ ?_⟩
        rw [heq₂]
        exact fun e he => hno e (hflush.flushed.writes.subset he)
      · exact fun x hx => (by cases hx)

/-- The transport after each frame that a send loop hands over. -/
def handovers (t : YamuxTransport) : List Frame → List YamuxTransport
  | [] => []
  | out :: outQueue =>
      match t.pollReady with
      | none => []
      | some (ready, t) =>
          if ready.isReady then
            match t.startSend out with
            | none => []
            | some t => t :: handovers t outQueue
          else []

/-- Along a send loop the level is kept frame by frame: a frame is handed over when
the buffer is below the limit or empty, and is no larger than a chunk. -/
theorem handovers_buffered {t t' : YamuxTransport} {queue : List Frame} (hw : t.writer.buffer.Wf)
    (hno : ∀ e, .ready (.error e) ∉ t.stream.writes)
    (hsmall : ∀ f ∈ queue, f.encode.length ≤ defaultChunkCapacity) (h : t' ∈ handovers t queue) :
    t'.writer.buffer.filledLen ≤ t.maxWriterBuffer + defaultChunkCapacity := by
  induction queue generalizing t with
  | nil => cases h
  | cons out queue ih =>
      rw [handovers] at h
      split at h
      · cases h
      · rename_i ready t₁ hready
        split at h
        · rename_i hr
          split at h
          · cases h
          · rename_i t₂ hsend
            have hclean := YamuxTransport.pollReady_clean hw hno hready
            obtain ⟨hw₂, hmax₂, hwrites, hb₂⟩ := YamuxTransport.handover_buffered hw hclean
              (hsmall out List.mem_cons_self) hready hr hsend
            have hno₂ : ∀ e, .ready (.error e) ∉ t₂.stream.writes :=
              fun e he => hno e (hwrites.subset he)
            rcases List.mem_cons.mp h with rfl | h
            · rw [hw₂.filledLen_eq]
              exact hb₂
            · rw [← hmax₂]
              exact ih hw₂ hno₂ (fun f hf => hsmall f (List.mem_cons_of_mem _ hf)) h
        · cases h

end YamuxSession

/-! ### The level -/

/-- The I/O object reports no error on writing. -/
def noWriteErrors : Guard := fun _ m =>
  match m with
  | .poll writes _ _ _ => ∀ e, .ready (.error e) ∉ writes
  | _ => True

/-- The write buffer is within the limit and one chunk, in a reachable state in
which no write error is due. -/
structure Level (isServer : Bool) (maxWriteBuffer : Nat) (s : YamuxSession) : Prop where
  reach : SessionReachable isServer maxWriteBuffer noWriteErrors s
  noErrors : ∀ e, .ready (.error e) ∉ s.transport.stream.writes
  limit : s.transport.maxWriterBuffer = maxWriteBuffer
  buffered : s.transport.buffered.length ≤ maxWriteBuffer + defaultChunkCapacity

namespace Level

open YamuxSession

variable {isServer : Bool} {maxWriteBuffer : Nat} {s s' : YamuxSession} {order : List StreamID}

/-- The level is kept by each phase. -/
theorem phase (h : Level isServer maxWriteBuffer s) (hphase : Phase order s s') :
    Level isServer maxWriteBuffer s' := by
  have hw := h.reach.wf
  have hreach := h.reach.pollSteps (hphase.steps hw)
  cases hphase with
  | @send _ sent sent' hsend =>
      obtain ⟨t, done, rest, hsend', -, hrun, -⟩ := trySend_spec hw sent
      cases hsend'.symm.trans hsend
      have hlimit := hrun.maxWriterBuffer.trans h.limit
      refine ⟨hreach, fun e he => h.noErrors e (hrun.writes.subset he), hlimit, ?_⟩
      have hb := trySend_buffered hw (takings_noErrors _ hw.writer h.noErrors) h.reach.smallFrames
        (by rw [h.limit]; exact h.buffered) hsend
      rw [h.limit] at hb
      exact hb
  | flush hflush =>
      exact ⟨hreach, fun e he => h.noErrors e (hflush.flushed.writes.subset he),
        hflush.maxWriterBuffer.trans h.limit,
        hflush.flushed.shorter.length_le.trans h.buffered⟩
  | closeIo =>
      have hwrites : s.transport.stream.pollClose.2.writes = s.transport.stream.writes := by
        unfold Io.pollClose
        split <;> rfl
      refine ⟨hreach, ?_, h.limit, h.buffered⟩
      show ∀ e, _ ∉ s.transport.stream.pollClose.2.writes
      rw [hwrites]
      exact h.noErrors
  | inbound hin _ =>
      refine ⟨hreach, by rw [hin.writes]; exact h.noErrors, hin.maxWriterBuffer.trans h.limit, ?_⟩
      rw [YamuxTransport.buffered, hin.writer]
      exact h.buffered
  | drain =>
      obtain ⟨htransport, -, -⟩ := s.drainAll_frame order
      exact ⟨hreach, by rw [htransport]; exact h.noErrors, by rw [htransport]; exact h.limit,
        by rw [htransport]; exact h.buffered⟩

theorem phases (h : Level isServer maxWriteBuffer s) (hphases : ReflTransGen (Phase order) s s') :
    Level isServer maxWriteBuffer s' := by
  induction hphases with
  | refl => exact h
  | tail _ hphase ih => exact ih.phase hphase

/-- A new call on an I/O object without write errors starts from the level it finds. -/
theorem behave (h : Level isServer maxWriteBuffer s)
    (writes : List (Poll (Except IoError Nat))) (reads : List (Poll (Except IoError Bytes)))
    (closes : List (Poll (Except IoError Unit))) (order : List StreamID)
    (hwrites : ∀ e, .ready (.error e) ∉ writes) :
    Level isServer maxWriteBuffer (s.behave writes reads closes) :=
  ⟨.step h.reach (.behave writes reads closes order hwrites), hwrites, h.limit, h.buffered⟩

/-- So the level is kept by each call. -/
theorem move (h : Level isServer maxWriteBuffer s) {m : Move} (hguard : noWriteErrors s m)
    (hmove : s.move m = some s') : Level isServer maxWriteBuffer s' := by
  cases m with
  | openStream =>
      obtain rfl := Option.some.inj hmove
      exact ⟨.step h.reach (.openStream hguard), h.noErrors, h.limit, h.buffered⟩
  | close code =>
      obtain rfl := Option.some.inj hmove
      exact ⟨.step h.reach (.close code hguard), h.noErrors, h.limit, h.buffered⟩
  | handle ref op =>
      obtain rfl := Option.some.inj hmove
      have htransport := handleOp_transport (s := s) ref op
      exact ⟨.step h.reach (.handle ref op hguard), by rw [htransport]; exact h.noErrors,
        by rw [htransport]; exact h.limit, by rw [htransport]; exact h.buffered⟩
  | poll writes reads closes order =>
      obtain ⟨⟨answer, s₁⟩, hpoll, rfl⟩ := Option.map_eq_some_iff.mp hmove
      have h₀ := h.behave writes reads closes order hguard
      exact h₀.phases (pollNext_phases h₀.reach.wf hpoll)

/-- And it holds in every state such calls lead to. -/
theorem of_reachable (h : (sessionMachine isServer maxWriteBuffer noWriteErrors).Reachable s) :
    Level isServer maxWriteBuffer s := by
  refine h.invariant ?_ ?_
  · rintro s rfl
    exact ⟨.init rfl, fun e he => (by cases he), rfl, Nat.zero_le _⟩
  · rintro s s' hs ⟨m, -, hguard, hmove⟩
    exact hs.move hguard hmove

theorem filledLen_le (h : Level isServer maxWriteBuffer s) :
    s.transport.writer.buffer.filledLen ≤ maxWriteBuffer + defaultChunkCapacity := by
  rw [h.reach.wf.writer.filledLen_eq]
  exact h.buffered

end Level

/-- As long as the I/O object reports no error on writing, the write buffer
never holds more than the limit and one chunk: neither between the calls nor
after any frame that a send loop hands over. -/
theorem write_buffer_bounded {isServer : Bool} {maxWriteBuffer : Nat} {s : YamuxSession}
    (h : (sessionMachine isServer maxWriteBuffer noWriteErrors).Reachable s) :
    s.transport.writer.buffer.filledLen ≤ maxWriteBuffer + defaultChunkCapacity ∧
      ∀ writes reads closes order s₁, (∀ e, .ready (.error e) ∉ writes) →
        YamuxSession.LoopStart (s.behave writes reads closes) order s₁ →
        ∀ t ∈ YamuxSession.handovers s₁.transport s₁.outQueue,
          t.writer.buffer.filledLen ≤ maxWriteBuffer + defaultChunkCapacity := by
  have hlevel := Level.of_reachable h
  refine ⟨hlevel.filledLen_le, ?_⟩
  intro writes reads closes order s₁ hwrites hstart t ht
  have h₀ := hlevel.behave writes reads closes order hwrites
  have h₁ := h₀.phases (hstart.phases h₀.reach.wf)
  rw [← h₁.limit]
  exact YamuxSession.handovers_buffered h₁.reach.wf.writer h₁.noErrors h₁.reach.smallFrames ht

/-- A session is closed, and the next call hands over its `GoAway`, which the
I/O object does not take. -/
theorem write_buffer_bounded_goAway :
    let s := ((YamuxSession.new Io.new false 0).close 0).behave [.pending] [] []
    (YamuxSession.handovers s.transport s.outQueue).map (·.writer.buffer.filledLen) = [12] ∧
      ∀ t ∈ YamuxSession.handovers s.transport s.outQueue,
        t.writer.buffer.filledLen ≤ 0 + defaultChunkCapacity := by
  have hclosed : (sessionMachine false 0 noWriteErrors).Reachable
      ((YamuxSession.new Io.new false 0).close 0) :=
    .step (.init rfl) ⟨.close 0, trivial, trivial, rfl⟩
  exact ⟨by decide +kernel, (write_buffer_bounded hclosed).2 [.pending] [] [] [] _
    (fun e he => by cases he with | tail _ he => cases he) .first⟩

end YamuxLowMem
