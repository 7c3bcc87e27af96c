/-
YamuxLowMem/SessionSteps.lean

The moves inside one call of `poll_next`, and the runs of a session.

A call of `poll_next` is a sequence of `PollStep`s: flush, send one queued
frame, close the I/O object, receive at most one frame, drain one head, forget
one head.  It never panics.  A run of a session interleaves such calls with
`open_stream`, `close` and the use of handles.
-/
import YamuxLowMem.Session
import YamuxLowMem.Wire
import YamuxLowMem.PairInv

namespace YamuxLowMem

open Async Relation

/-! ### Draining one head -/

/-- An upper bound on the events a head can yield before it stops. -/
def StreamPair.work (p : StreamPair) : Nat :=
  p.head.outs.length + 2 * p.up.queue.length + p.head.state.localOpen.toNat

/-- The `FIN` that closing puts out was counted as long as the stream was open. -/
theorem tryCloseLocal_work (h : YamuxStreamHead) :
    h.tryCloseLocal.outs.length + h.tryCloseLocal.state.localOpen.toNat =
      h.outs.length + h.state.localOpen.toNat := by
  rw [YamuxStreamHead.tryCloseLocal_eq]
  cases h.state.localOpen <;> simp

/-- Each chunk that is taken from the handle makes a header and a payload at most. -/
theorem drainRx_work (h : YamuxStreamHead) (senderOpen : Bool) (queue : List Bytes) :
    (h.drainRx senderOpen queue).1.outs.length + 2 * (h.drainRx senderOpen queue).2.length +
        (h.drainRx senderOpen queue).1.state.localOpen.toNat ≤
      h.outs.length + 2 * queue.length + h.state.localOpen.toNat := by
  induction queue generalizing h with
  | nil =>
      have hclose := tryCloseLocal_work h
      simp only [YamuxStreamHead.drainRx]
      split <;> simp only [List.length_nil] <;> omega
  | cons chunk rest ih =>
      simp only [YamuxStreamHead.drainRx]
      split
      · split
        · have hclose := tryCloseLocal_work h
          have hrest := ih h.tryCloseLocal
          simp only [List.length_cons]
          omega
        · have hrest := ih (h.sendChunk chunk)
          simp only [YamuxStreamHead.sendChunk, List.length_append, List.length_cons,
            List.length_nil] at hrest ⊢
          omega
      · exact Nat.le_refl _

namespace StreamPair

variable {p q : StreamPair}

/-- So each event that is yielded brings the head nearer to its end. -/
theorem pollNext_work {e : FrameStreamEvent} (h : p.pollNext = (.ready (some e), q)) :
    q.work < p.work := by
  have hdrain := drainRx_work p.head p.up.senderOpen p.up.queue
  cases ho : p.head.outs with
  | cons e' rest =>
      simp only [pollNext, YamuxStreamHead.pollNext, ho] at h
      obtain rfl := (Prod.mk.inj h).2
      simp only [work, ho, List.length_cons]
      omega
  | nil =>
      cases hc : p.head.state.isClosed with
      | true => simp [pollNext, YamuxStreamHead.pollNext, ho, hc] at h
      | false =>
          simp only [pollNext, YamuxStreamHead.pollNext, ho, hc, Bool.false_eq_true, if_false] at h
          generalize p.head.drainRx p.up.senderOpen p.up.queue = drained at h hdrain
          obtain ⟨h', queue'⟩ := drained
          cases ho' : h'.outs with
          | nil => simp [ho'] at h
          | cons e' rest =>
              simp only [ho'] at h
              obtain rfl := (Prod.mk.inj h).2
              simp only [ho', List.length_cons] at hdrain
              simp only [work]
              omega

/-- A poll that yields nothing leaves nothing to yield. -/
theorem pollNext_outs (h : ∀ e, p.pollNext.1 ≠ .ready (some e)) : p.pollNext.2.head.outs = [] := by
  cases ho : p.head.outs with
  | cons e rest =>
      refine absurd ?_ (h e)
      simp [pollNext, YamuxStreamHead.pollNext, ho]
  | nil =>
      cases hc : p.head.state.isClosed with
      | true => simp [pollNext, YamuxStreamHead.pollNext, ho, hc]
      | false =>
          cases ho' : (p.head.drainRx p.up.senderOpen p.up.queue).1.outs with
          | nil => simp [pollNext, YamuxStreamHead.pollNext, ho, hc, ho']
          | cons e rest =>
              refine absurd ?_ (h e)
              simp [pollNext, YamuxStreamHead.pollNext, ho, hc, ho']

end StreamPair

/-- What draining a head does to the pair. -/
structure Drained (p : StreamPair) (events : List FrameStreamEvent) (closed : Bool)
    (q : StreamPair) : Prop where
  steps : ReflTransGen PairStep p q
  emitted : q.emitted = p.emitted ++ events
  inputs : q.inputs = p.inputs
  handle : q.handle = p.handle
  upLog : q.up.log = p.up.log
  recvState : q.head.recvState = p.head.recvState
  alive : q.headAlive = p.headAlive
  outs : q.head.outs = []
  isClosed : closed = true → q.head.state.isClosed = true

/-- With fuel for all that a head can yield, it is drained until it has nothing to yield. -/
theorem drainHead_spec {p : StreamPair} (fuel : Nat) (halive : p.headAlive)
    (hfuel : p.work < fuel) :
    Drained p (YamuxSession.drainHead fuel p).1 (YamuxSession.drainHead fuel p).2.1
      (YamuxSession.drainHead fuel p).2.2 := by
  induction fuel generalizing p with
  | zero => exact absurd hfuel (Nat.not_lt_zero _)
  | succ fuel ih =>
      have hsteps := StreamPair.pollNext_steps halive
      have hemitted := StreamPair.pollNext_emitted (p := p)
      have hrecv := StreamPair.pollNext_recvState (p := p)
      have hinputs := StreamPair.pollNext_inputs (p := p)
      have hhandle : p.pollNext.2.handle = p.handle := rfl
      have hlog := StreamPair.pollNext_upLog (p := p)
      have hpalive := StreamPair.pollNext_headAlive (p := p)
      have houts := StreamPair.pollNext_outs (p := p)
      cases hpoll : p.pollNext with
      | mk result q =>
          rw [hpoll] at hsteps hemitted hrecv hinputs hhandle hlog hpalive houts
          cases result with
          | pending =>
              simp only [YamuxSession.drainHead, hpoll]
              exact ⟨hsteps, hemitted, hinputs, hhandle, hlog, hrecv, hpalive,
                houts fun e h => (by cases h), fun h => (by cases h)⟩
          | ready event =>
              cases event with
              | none =>
                  obtain rfl := StreamPair.pollNext_none hpoll
                  have hclosed := (StreamPair.pollNext_eq_none_iff.mp (congrArg Prod.fst hpoll)).2
                  simp only [YamuxSession.drainHead, hpoll]
                  exact ⟨hsteps, hemitted, rfl, rfl, rfl, rfl, rfl, houts fun e h => (by cases h),
                    fun _ => hclosed⟩
              | some e =>
                  have hq := ih (p := q) (by rw [hpalive]; exact halive)
                    (Nat.lt_of_lt_of_le (StreamPair.pollNext_work hpoll) (Nat.le_of_lt_succ hfuel))
                  simp only [YamuxSession.drainHead, hpoll]
                  refine ⟨hsteps.trans hq.steps, ?_, hq.inputs.trans hinputs,
                    hq.handle.trans hhandle, hq.upLog.trans hlog, hq.recvState.trans hrecv,
                    hq.alive.trans hpalive, hq.outs, hq.isClosed⟩
                  rw [hq.emitted, hemitted, List.append_assoc]
                  rfl

/-! ### Moves inside a call of `poll_next` -/

namespace YamuxSession

/-- What the session does with an event of the transport. -/
def deliver (s : YamuxSession) (event : Poll (Option (Except YamuxTransportError Frame))) :
    YamuxSession :=
  match event with
  | .ready (some (.ok frame)) => (s.onFrame frame).2
  | _ => s

end YamuxSession

/-- The moves of which a call of `poll_next` is made up. -/
inductive PollStep : YamuxSession → YamuxSession → Prop where
  | flush {s : YamuxSession} {t : YamuxTransport} {result} :
      YamuxTransport.Flush result s.transport t → PollStep s { s with transport := t }
  | send {s : YamuxSession} {t : YamuxTransport} {out : Frame} {rest : List Frame} :
      s.outQueue = out :: rest → s.transport.startSend out = some t →
      PollStep s { s with transport := t, outQueue := rest }
  | closeIo {s : YamuxSession} :
      PollStep s { s with
        transport := { s.transport with stream := s.transport.stream.pollClose.2 } }
  | receive {s : YamuxSession} {t : YamuxTransport} {event} {pushed : Bytes} :
      YamuxTransport.Receive event s.transport t pushed →
      PollStep s ({ s with transport := t }.deliver event)
  | drain {s : YamuxSession} {id : StreamID} {p : StreamPair} :
      s.streams.lookup id = some p → PollStep s (s.drainStream id p).1
  | remove {s : YamuxSession} (id : StreamID) : PollStep s (s.removeStream id)

namespace YamuxSession

/-- The buffers of the transport are in order, so no call on them panics. -/
structure Wf (s : YamuxSession) : Prop where
  writer : s.transport.writer.buffer.Wf
  reader : s.transport.reader.buffer.Wf

/-- Both buffers of a new session are empty. -/
theorem wf_new (stream : Io) (isServer : Bool) (maxWriteBuffer : Nat) :
    (new stream isServer maxWriteBuffer).Wf :=
  ⟨ChainedChunkBufferWriter.wf_new, ChainedChunkBufferReader.wf_new⟩

variable {s : YamuxSession}

theorem logError_transport (id : StreamID) (result : Except YamuxStreamHeadError Unit) :
    (s.logError id result).transport = s.transport := by
  cases result <;> rfl

/-- Frames are dealt with behind the transport, and do not go back to it. -/
theorem onFrame_transport (frame : Frame) : (s.onFrame frame).2.transport = s.transport := by
  match frame with
  | .session (.goAway code) => rfl
  | .session (.ping flags code) =>
      simp only [onFrame]
      split <;> rfl
  | .stream id event =>
      simp only [onFrame]
      split
      · exact logError_transport _ _
      · split
        · split
          · exact logError_transport _ _
          · rfl
        · rfl

/-- What is not a frame changes nothing. -/
theorem deliver_of_not_frame {event : Poll (Option (Except YamuxTransportError Frame))}
    (h : ∀ f, event ≠ .ready (some (.ok f))) : s.deliver event = s := by
  unfold deliver
  split
  · rename_i f
    exact absurd rfl (h f)
  · rfl

theorem deliver_transport (event : Poll (Option (Except YamuxTransportError Frame))) :
    (s.deliver event).transport = s.transport := by
  unfold deliver
  split
  · exact onFrame_transport _
  · rfl

end YamuxSession

/-- No move leaves a buffer out of order. -/
theorem PollStep.wf {s s' : YamuxSession} (h : PollStep s s') (hw : s.Wf) : s'.Wf := by
  cases h with
  | flush hflush =>
      refine ⟨hflush.wf, ?_⟩
      show YamuxTransport.reader _ |>.buffer.Wf
      rw [hflush.reader]
      exact hw.reader
  | @send t out rest hq hsend =>
      obtain ⟨t', hsend', hwf, -, heq⟩ := YamuxTransport.startSend_spec hw.writer out
      obtain rfl : t = t' := Option.some.inj (hsend.symm.trans hsend')
      refine ⟨hwf, ?_⟩
      show t.reader.buffer.Wf
      rw [heq]
      exact hw.reader
  | closeIo => exact ⟨hw.writer, hw.reader⟩
  | @receive t event pushed hreceive =>
      have htransport := YamuxSession.deliver_transport (s := { s with transport := t }) event
      refine ⟨?_, ?_⟩
      · rw [htransport, hreceive.eq]
        exact hw.writer
      · rw [htransport]
        exact hreceive.wf
  | drain | remove => exact ⟨hw.writer, hw.reader⟩

theorem PollStep.steps_wf {s s' : YamuxSession} (h : ReflTransGen PollStep s s') (hw : s.Wf) :
    s'.Wf := by
  induction h with
  | refl => exact hw
  | tail _ hstep ih => exact hstep.wf ih

/-! ### The loops of `poll_next` -/

/-- The bytes of a sequence of frames. -/
def encoding (frames : List Frame) : Bytes := frames.flatMap Frame.encode

@[simp] theorem encoding_append (fs fs' : List Frame) :
    encoding (fs ++ fs') = encoding fs ++ encoding fs' := List.flatMap_append

@[simp] theorem encoding_cons (f : Frame) (fs : List Frame) :
    encoding (f :: fs) = f.encode ++ encoding fs := List.flatMap_cons

@[simp] theorem encoding_nil : encoding [] = [] := rfl

/-- What the send loop does: the frames `done` have been handed over, and
`rest` is left because the transport was not ready. -/
structure SendRun (t : YamuxTransport) (done : List Frame) (t' : YamuxTransport)
    (rest : List Frame) : Prop where
  reader : t'.reader = t.reader
  received : t'.received = t.received
  maxWriterBuffer : t'.maxWriterBuffer = t.maxWriterBuffer
  sent : t'.sent = t.sent ++ done
  wf : t'.writer.buffer.Wf
  bytes : t'.stream.accepted ++ t'.buffered = t.stream.accepted ++ t.buffered ++ encoding done
  accepted : t.stream.accepted <+: t'.stream.accepted
  delivered : t'.stream.delivered = t.stream.delivered
  reads : t'.stream.reads = t.stream.reads
  closes : t'.stream.closes = t.stream.closes
  writes : t'.stream.writes <:+ t.stream.writes
  refused : rest ≠ [] → t'.stream.calls.getLast? = some .pending ∧ t'.buffered ≠ [] ∧
    t.maxWriterBuffer ≤ t'.buffered.length
  idle : done = [] → rest = [] → t' = t

namespace YamuxSession

variable {s : YamuxSession}

/-- The loop hands over frames in the order of the queue until the transport is not
ready, and loses none of them. -/
theorem sendLoop_spec (hw : s.Wf) (sent : Bool) :
    ∃ t done rest, sendLoop s.transport sent s.outQueue = some (t, rest, sent || !done.isEmpty) ∧
      s.outQueue = done ++ rest ∧ SendRun s.transport done t rest ∧
      ReflTransGen PollStep s { s with transport := t, outQueue := rest } := by
  generalize hqueue : s.outQueue = queue
  induction queue generalizing s sent with
  | nil =>
      refine ⟨s.transport, [], [], by simp [sendLoop], rfl, ?_, ?_⟩
      · exact ⟨rfl, rfl, rfl, by simp, hw.writer, by simp, List.prefix_rfl, rfl, rfl, rfl,
          List.suffix_rfl, fun h => absurd rfl h, fun _ _ => rfl⟩
      · rw [← hqueue]
  | cons out queue ih =>
      obtain ⟨ready, result, t₁, hready, hflush, hpending, -⟩ :=
        YamuxTransport.pollReady_spec hw.writer
      have hflushed := hflush.flushed
      have hstep : PollStep s { s with transport := t₁ } := .flush hflush
      have hreader := hflush.reader
      have hreceived := hflush.received
      have hmax := hflush.maxWriterBuffer
      have hsent := hflush.sent
      cases hr : ready.isReady with
      | false =>
          -- the transport refuses: the loop stops with the frame still queued
          obtain ⟨rfl, hfull⟩ := hpending.mp hr
          refine ⟨t₁, [], out :: queue, by simp [sendLoop, hready, hr], rfl, ?_, ?_⟩
          · refine ⟨hreader, hreceived, hmax, by rw [hsent, List.append_nil], hflush.wf, ?_,
              hflushed.accepted, hflushed.delivered, hflushed.reads, hflushed.closes,
              hflushed.writes, ?_, fun _ h => (by cases h)⟩
            · rw [hflushed.conserved, encoding_nil, List.append_nil]
            · intro _
              exact ⟨(hflushed.pending rfl).1, (hflushed.pending rfl).2, hfull⟩
          · rw [← hqueue]
            exact .single hstep
      | true =>
          -- the frame goes into the write buffer, and the loop goes on
          obtain ⟨t₂, hsend, hw₂, hb₂, heq₂⟩ := YamuxTransport.startSend_spec hflush.wf out
          have hsend' : PollStep { s with transport := t₁ }
              { s with transport := t₂, outQueue := queue } :=
            .send (s := { s with transport := t₁ }) hqueue hsend
          have hw' : YamuxSession.Wf { s with transport := t₂, outQueue := queue } :=
            hsend'.wf (hstep.wf hw)
          have hstream : t₂.stream = t₁.stream := by rw [heq₂]
          obtain ⟨t, done, rest, hloop, hsplit, hrun, hsteps⟩ := ih hw' true rfl
          refine ⟨t, out :: done, rest, ?_, by rw [hsplit]; rfl, ?_, ?_⟩
          · simp [sendLoop, hready, hr, hsend, hloop]
          · refine ⟨?_, ?_, ?_, ?_, hrun.wf, ?_, ?_, ?_, ?_, ?_, ?_, ?_, fun h => (by cases h)⟩
            · rw [hrun.reader, ← hreader, heq₂]
            · rw [hrun.received, ← hreceived, heq₂]
            · rw [hrun.maxWriterBuffer, ← hmax, heq₂]
            · rw [hrun.sent, heq₂, ← hsent, List.append_assoc]
              rfl
            · rw [hrun.bytes]
              show t₂.stream.accepted ++ t₂.buffered ++ _ = _
              rw [hstream, hb₂, ← List.append_assoc, hflushed.conserved, encoding_cons]
              simp only [List.append_assoc]
            · apply hflushed.accepted.trans
              rw [← hstream]
              exact hrun.accepted
            · rw [hrun.delivered, ← hflushed.delivered, ← hstream]
            · rw [hrun.reads, ← hflushed.reads, ← hstream]
            · rw [hrun.closes, ← hflushed.closes, ← hstream]
            · have hwrites := hrun.writes
              rw [show t₂.stream = t₁.stream from hstream] at hwrites
              exact hwrites.trans hflushed.writes
            · intro hrest
              have hrefused := hrun.refused hrest
              rw [show t₂.maxWriterBuffer = s.transport.maxWriterBuffer by rw [heq₂, hmax]]
                at hrefused
              exact hrefused
          · exact ((ReflTransGen.single hstep).tail hsend').trans hsteps

/-- The part of the session that receiving leaves alone; only control frames
are queued. -/
structure Inbound (s s' : YamuxSession) : Prop where
  writer : s'.transport.writer = s.transport.writer
  sent : s'.transport.sent = s.transport.sent
  maxWriterBuffer : s'.transport.maxWriterBuffer = s.transport.maxWriterBuffer
  accepted : s'.transport.stream.accepted = s.transport.stream.accepted
  writes : s'.transport.stream.writes = s.transport.stream.writes
  closes : s'.transport.stream.closes = s.transport.stream.closes
  calls : s'.transport.stream.calls = s.transport.stream.calls
  manualClose : s'.manualClose = s.manualClose
  nextStreamId : s'.nextStreamId = s.nextStreamId
  streams : ∀ id, id ∈ s.streams → id ∈ s'.streams
  outQueue : ∃ pings : List (Flags × UInt32), s'.outQueue = s.outQueue ++
    pings.map fun ping => Frame.session (.ping ping.1 ping.2)

theorem Inbound.refl (s : YamuxSession) : Inbound s s :=
  ⟨rfl, rfl, rfl, rfl, rfl, rfl, rfl, rfl, rfl, fun _ h => h, [], by simp⟩

theorem Inbound.trans {s₁ s₂ s₃ : YamuxSession} (h : Inbound s₁ s₂) (h' : Inbound s₂ s₃) :
    Inbound s₁ s₃ := by
  obtain ⟨pings, hp⟩ := h.outQueue
  obtain ⟨pings', hp'⟩ := h'.outQueue
  refine ⟨h'.writer.trans h.writer, h'.sent.trans h.sent,
    h'.maxWriterBuffer.trans h.maxWriterBuffer, h'.accepted.trans h.accepted,
    h'.writes.trans h.writes, h'.closes.trans h.closes, h'.calls.trans h.calls,
    h'.manualClose.trans h.manualClose, h'.nextStreamId.trans h.nextStreamId,
    fun id hid => h'.streams id (h.streams id hid), pings ++ pings', ?_⟩
  rw [hp', hp, List.map_append, List.append_assoc]

theorem logError_inbound (s : YamuxSession) (id : StreamID)
    (result : Except YamuxStreamHeadError Unit) : Inbound s (s.logError id result) := by
  cases result with
  | ok => exact .refl s
  | error e =>
      exact ⟨rfl, rfl, rfl, rfl, rfl, rfl, rfl, rfl, rfl, fun _ h => h, [], by simp [logError]⟩

/-- A frame adds an answer to a ping to the queue, or a stream, and touches nothing
of the write side. -/
theorem onFrame_inbound (s : YamuxSession) (frame : Frame) : Inbound s (s.onFrame frame).2 := by
  match frame with
  | .session (.goAway code) => exact .refl s
  | .session (.ping flags code) =>
      simp only [onFrame]
      split
      · exact ⟨rfl, rfl, rfl, rfl, rfl, rfl, rfl, rfl, rfl, fun _ h => h,
          [(Flags.onlyAck, code)], rfl⟩
      · exact .refl s
  | .stream id event =>
      simp only [onFrame]
      split
      · refine .trans ?_ (logError_inbound _ _ _)
        exact ⟨rfl, rfl, rfl, rfl, rfl, rfl, rfl, rfl, rfl,
          fun _ h => Finmap.mem_insert.mpr (Or.inr h), [], by simp [setStream]⟩
      · split
        · split
          · refine .trans ?_ (logError_inbound _ _ _)
            exact ⟨rfl, rfl, rfl, rfl, rfl, rfl, rfl, rfl, rfl,
              fun _ h => Finmap.mem_insert.mpr (Or.inr h), [], by simp [insertStream]⟩
          · exact .refl s
        · exact .refl s

/-- So does all that the transport can report. -/
theorem receive_inbound {t : YamuxTransport} {event} {pushed : Bytes}
    (h : YamuxTransport.Receive event s.transport t pushed) :
    Inbound s ({ s with transport := t }.deliver event) := by
  have hfirst : Inbound s { s with transport := t } := by
    rw [h.eq]
    exact ⟨rfl, rfl, rfl, rfl, rfl, rfl, rfl, rfl, rfl, fun _ h => h, [], by simp⟩
  apply hfirst.trans
  unfold deliver
  split
  · exact onFrame_inbound _ _
  · exact .refl _

/-- The sizes of the answers add up to the bytes they carry. -/
theorem readSize_sum (reads : List (Poll (Except IoError Bytes))) :
    (reads.map readSize).sum = (readable reads).length := by
  induction reads with
  | nil => rfl
  | cons answer reads ih =>
      rw [List.map_cons, List.sum_cons, ih, readable, readable, List.flatMap_cons,
        List.length_append]
      rcases answer with - | e | bs <;> rfl

/-- The fuel of the inbound loop is measured on the buffers as the source has them;
this is what it is in bytes. -/
theorem inboundWork_eq (hw : s.Wf) : s.inboundWork = s.transport.receivable := by
  have hlen : s.transport.reader.buffer.len = s.transport.reader.buffer.bytes.length :=
    hw.reader.len_eq
  rw [inboundWork, YamuxTransport.receivable, held, hlen, readSize_sum]

/-- A frame that ends the call does not leave it pending. -/
theorem onFrame_answer (s : YamuxSession) (frame : Frame) :
    (s.onFrame frame).1 ≠ some .pending := by
  match frame with
  | .session (.goAway code) => simp [onFrame]
  | .session (.ping flags code) =>
      simp only [onFrame]
      split <;> simp
  | .stream id event =>
      simp only [onFrame]
      split
      · simp
      · split
        · split <;> simp
        · simp

/-- With that fuel the loop ends by itself: each frame takes bytes that were there to
be received. -/
theorem inboundLoop_spec (fuel : Nat) (hw : s.Wf) (hfuel : s.transport.receivable < fuel) :
    ∃ answer s', s.inboundLoop fuel = some (answer, s') ∧ ReflTransGen PollStep s s' ∧
      Inbound s s' ∧ answer ≠ some .pending := by
  induction fuel generalizing s with
  | zero => exact absurd hfuel (Nat.not_lt_zero _)
  | succ fuel ih =>
      obtain ⟨event, t, pushed, hnext, hreceive⟩ := YamuxTransport.pollNext_spec hw.reader
      have hstep : PollStep s _ := .receive hreceive
      have hin := receive_inbound hreceive
      match event with
      | .pending =>
          exact ⟨none, _, by simp [inboundLoop, hnext]; rfl, .single hstep, hin, by simp⟩
      | .ready none =>
          exact ⟨some (.ready none), _, by simp [inboundLoop, hnext]; rfl, .single hstep, hin,
            by simp⟩
      | .ready (some (.error e)) =>
          exact ⟨some (.ready none), _, by simp [inboundLoop, hnext]; rfl, .single hstep, hin,
            by simp⟩
      | .ready (some (.ok frame)) =>
          cases hframe : YamuxSession.onFrame { s with transport := t } frame with
          | mk answer s₁ =>
              have hdeliver : { s with transport := t }.deliver (.ready (some (.ok frame))) = s₁ :=
                congrArg Prod.snd hframe
              rw [hdeliver] at hstep hin
              cases answer with
              | some answer =>
                  have hanswer := onFrame_answer { s with transport := t } frame
                  rw [hframe] at hanswer
                  exact ⟨some answer, s₁, by simp [inboundLoop, hnext, hframe], .single hstep, hin,
                    hanswer⟩
              | none =>
                  -- a frame lowers what can still be received
                  have hless : s₁.transport.receivable < fuel := by
                    have htransport : s₁.transport = t := by
                      rw [← hdeliver]
                      exact deliver_transport _
                    rw [htransport]
                    exact Nat.lt_of_lt_of_le (hreceive.less frame rfl) (Nat.le_of_lt_succ hfuel)
                  obtain ⟨answer, s', hloop, hsteps, hin', hanswer⟩ := ih (hstep.wf hw) hless
                  exact ⟨answer, s', by simp [inboundLoop, hnext, hframe, hloop],
                    (ReflTransGen.single hstep).trans hsteps, hin.trans hin', hanswer⟩

/-- Polling the heads is a move for each of them that is registered. -/
theorem drainHeads_steps (order : List StreamID) :
    ReflTransGen PollStep s (s.drainHeads order).1 := by
  induction order generalizing s with
  | nil => exact .refl
  | cons id order ih =>
      cases hp : s.streams.lookup id with
      | none =>
          simp only [drainHeads, hp]
          exact ih
      | some p =>
          simp only [drainHeads, hp]
          exact ReflTransGen.head (.drain hp) ih

theorem removeAll_steps (ids : List StreamID) :
    ReflTransGen PollStep s (ids.foldl removeStream s) := by
  induction ids generalizing s with
  | nil => exact .refl
  | cons id ids ih => exact ReflTransGen.head (.remove id) ih

theorem drainAll_steps (order : List StreamID) : ReflTransGen PollStep s (s.drainAll order) :=
  s.drainHeads_steps order |>.trans (removeAll_steps _)

/-- Polling the heads adds to the queue, and changes nothing else outside the streams. -/
theorem drainHeads_frame (order : List StreamID) :
    (s.drainHeads order).1.transport = s.transport ∧
      (s.drainHeads order).1.manualClose = s.manualClose ∧
      ∃ events, (s.drainHeads order).1.outQueue = s.outQueue ++ events := by
  induction order generalizing s with
  | nil => exact ⟨rfl, rfl, [], (List.append_nil _).symm⟩
  | cons id order ih =>
      cases hp : s.streams.lookup id with
      | none =>
          simp only [drainHeads, hp]
          exact ih
      | some p =>
          obtain ⟨htransport, hclose, events, hqueue⟩ := ih (s := (s.drainStream id p).1)
          simp only [drainHeads, hp]
          refine ⟨htransport, hclose, ?_⟩
          rw [hqueue]
          exact ⟨_, List.append_assoc _ _ _⟩

theorem removeAll_frame (ids : List StreamID) :
    (ids.foldl removeStream s).transport = s.transport ∧
      (ids.foldl removeStream s).manualClose = s.manualClose ∧
      (ids.foldl removeStream s).outQueue = s.outQueue := by
  induction ids generalizing s with
  | nil => exact ⟨rfl, rfl, rfl⟩
  | cons id ids ih => exact ih (s := s.removeStream id)

theorem drainAll_frame (order : List StreamID) :
    (s.drainAll order).transport = s.transport ∧
      (s.drainAll order).manualClose = s.manualClose ∧
      ∃ events, (s.drainAll order).outQueue = s.outQueue ++ events := by
  obtain ⟨htransport, hclose, events, hqueue⟩ := drainHeads_frame (s := s) order
  obtain ⟨htransport', hclose', hqueue'⟩ :=
    removeAll_frame (s := (s.drainHeads order).1) (s.drainHeads order).2
  exact ⟨htransport'.trans htransport, hclose'.trans hclose, events, hqueue'.trans hqueue⟩

/-- With nothing queued there is nothing to send. -/
theorem trySend_nil (h : s.outQueue = []) (sent : Bool) : s.trySend sent = some (s, sent) := by
  obtain ⟨transport, streams, nextStreamId, outQueue, manualClose, dropped, errors⟩ := s
  obtain rfl : outQueue = [] := h
  rfl

/-- Closing the transport: flush, and close the I/O object once that is done. -/
theorem pollClosing_spec (hw : s.Wf) :
    ∃ result t, s.transport.pollWrite = some (result, t) ∧
      YamuxTransport.Flush result s.transport t ∧
      s.pollClosing = some (match result with
        | .pending => (.pending, { s with transport := t })
        | .ready (.error _) => (.ready none, { s with transport := t })
        | .ready (.ok ()) =>
            (if t.stream.pollClose.1.isReady then .ready none else .pending,
              { s with transport := { t with stream := t.stream.pollClose.2 } })) := by
  obtain ⟨result, t, hwrite, hflush⟩ := YamuxTransport.pollWrite_spec hw.writer
  refine ⟨result, t, hwrite, hflush, ?_⟩
  rcases result with - | e | u
  · simp [pollClosing, YamuxTransport.pollClose, hwrite]
  · simp [pollClosing, YamuxTransport.pollClose, hwrite]
  · rcases hclose : t.stream.pollClose with ⟨answer, stream⟩
    rcases answer with - | e | u <;>
      simp [pollClosing, YamuxTransport.pollClose, hwrite, hclose]

/-- Closing flushes, and closes the I/O object in the end. -/
theorem pollClosing_steps (hw : s.Wf) :
    ∃ answer s', s.pollClosing = some (answer, s') ∧ ReflTransGen PollStep s s' := by
  obtain ⟨result, t, -, hflush, hclosing⟩ := pollClosing_spec hw
  have hstep : PollStep s { s with transport := t } := .flush hflush
  rcases result with - | e | u
  · exact ⟨_, _, hclosing, .single hstep⟩
  · exact ⟨_, _, hclosing, .single hstep⟩
  · exact ⟨_, _, hclosing, (ReflTransGen.single hstep).tail .closeIo⟩

/-- The flush at the end of a call that has sent something. -/
theorem flushSent_spec (hw : s.Wf) :
    ∃ result t, s.transport.pollWrite = some (result, t) ∧
      YamuxTransport.Flush result s.transport t ∧
      s.flushSent true = some (match result with
        | .ready (.error _) => (.ready none, { s with transport := t })
        | _ => (.pending, { s with transport := t })) := by
  obtain ⟨result, t, hwrite, hflush⟩ := YamuxTransport.pollWrite_spec hw.writer
  refine ⟨result, t, hwrite, hflush, ?_⟩
  rcases result with - | e | u <;> simp [flushSent, YamuxTransport.pollFlush, hwrite]

/-- The last flush is one move, and without anything sent there is none. -/
theorem flushSent_steps (hw : s.Wf) (sent : Bool) :
    ∃ answer s', s.flushSent sent = some (answer, s') ∧ ReflTransGen PollStep s s' := by
  cases sent with
  | false => exact ⟨.pending, s, rfl, .refl⟩
  | true =>
      obtain ⟨result, t, -, hflush, hsent⟩ := flushSent_spec hw
      have hstep : PollStep s { s with transport := t } := .flush hflush
      rcases result with - | e | u <;> exact ⟨_, _, hsent, .single hstep⟩

/-- The send loop on the session's own queue. -/
theorem trySend_spec (hw : s.Wf) (sent : Bool) :
    ∃ t done rest, s.trySend sent =
        some ({ s with transport := t, outQueue := rest }, sent || !done.isEmpty) ∧
      s.outQueue = done ++ rest ∧ SendRun s.transport done t rest ∧
      ReflTransGen PollStep s { s with transport := t, outQueue := rest } := by
  obtain ⟨t, done, rest, hsend, hsplit, hrun, hsteps⟩ := sendLoop_spec hw sent
  exact ⟨t, done, rest, by simp [trySend, hsend], hsplit, hrun, hsteps⟩

/-! ### The ways through `poll_next` -/

section Ways

variable {order : List StreamID} {s₁ s₂ s₃ : YamuxSession} {sent sent' : Bool}
  {answer : Poll (Option YamuxStream)}

/-- After `close` a call sends and flushes only. -/
theorem pollNext_closing (hsend : s.trySend false = some (s₁, sent))
    (hclose : s₁.manualClose = true) : s.pollNext order = s₁.pollClosing := by
  simp [pollNext, hsend, hclose]

/-- A frame that answers the call ends it before the heads are polled. -/
theorem pollNext_answer (hsend : s.trySend false = some (s₁, sent))
    (hclose : s₁.manualClose = false)
    (hloop : s₁.inboundLoop (s₁.inboundWork + 1) = some (some answer, s₂)) :
    s.pollNext order = some (answer, s₂) := by
  simp [pollNext, hsend, hclose, hloop]

/-- With nothing to answer, the heads are drained and what they yield is sent. -/
theorem pollNext_drain (hsend : s.trySend false = some (s₁, sent))
    (hclose : s₁.manualClose = false)
    (hloop : s₁.inboundLoop (s₁.inboundWork + 1) = some (none, s₂))
    (hsend' : (s₂.drainAll order).trySend sent = some (s₃, sent')) :
    s.pollNext order = s₃.flushSent sent' := by
  simp [pollNext, hsend, hclose, hloop, hsend']

end Ways

/-- What a send loop does. -/
structure Sending (s : YamuxSession) (sent : Bool) (t : YamuxTransport) (done rest : List Frame) :
    Prop where
  send : s.trySend sent =
    some ({ s with transport := t, outQueue := rest }, sent || !done.isEmpty)
  split : s.outQueue = done ++ rest
  run : SendRun s.transport done t rest
  steps : ReflTransGen PollStep s { s with transport := t, outQueue := rest }
  wf : Wf { s with transport := t, outQueue := rest }

/-- What the loop over inbound frames does. -/
structure Reading (s : YamuxSession) (answer : Option (Poll (Option YamuxStream)))
    (s' : YamuxSession) : Prop where
  loop : s.inboundLoop (s.inboundWork + 1) = some (answer, s')
  steps : ReflTransGen PollStep s s'
  inbound : Inbound s s'
  ready : answer ≠ some .pending
  wf : s'.Wf

/-- Where the buffers are in order the send loop comes to an end. -/
theorem exists_sending (hw : s.Wf) (sent : Bool) : ∃ t done rest, Sending s sent t done rest := by
  obtain ⟨t, done, rest, hsend, hsplit, hrun, hsteps⟩ := trySend_spec hw sent
  exact ⟨t, done, rest, hsend, hsplit, hrun, hsteps, PollStep.steps_wf hsteps hw⟩

/-- And so does the loop over inbound frames. -/
theorem exists_reading (hw : s.Wf) : ∃ answer s', Reading s answer s' := by
  have hfuel := Nat.lt_succ_of_le (Nat.le_of_eq (inboundWork_eq hw).symm)
  obtain ⟨answer, s', hloop, hsteps, hin, hready⟩ := inboundLoop_spec _ hw hfuel
  exact ⟨answer, s', hloop, hsteps, hin, hready, PollStep.steps_wf hsteps hw⟩

/-- The courses a call can take, with what its parts do. -/
inductive Course (s : YamuxSession) (order : List StreamID) : Prop where
  /-- `close` has been called -/
  | closing {t : YamuxTransport} {done rest : List Frame} :
      Sending s false t done rest → s.manualClose = true →
      s.pollNext order = pollClosing { s with transport := t, outQueue := rest } → Course s order
  /-- what came in ends the call -/
  | answered {t : YamuxTransport} {done rest : List Frame} {answer : Poll (Option YamuxStream)}
      {s₂ : YamuxSession} :
      Sending s false t done rest → s.manualClose = false →
      Reading { s with transport := t, outQueue := rest } (some answer) s₂ →
      s.pollNext order = some (answer, s₂) → Course s order
  /-- the heads are drained -/
  | drained {t t' : YamuxTransport} {done rest done' rest' : List Frame} {s₂ : YamuxSession} :
      Sending s false t done rest → s.manualClose = false →
      Reading { s with transport := t, outQueue := rest } none s₂ →
      Sending (s₂.drainAll order) (false || !done.isEmpty) t' done' rest' →
      s.pollNext order = flushSent { s₂.drainAll order with transport := t', outQueue := rest' }
        ((false || !done.isEmpty) || !done'.isEmpty) → Course s order

/-- Every call takes one of these courses. -/
theorem course (hw : s.Wf) (order : List StreamID) : Course s order := by
  obtain ⟨t, done, rest, hsend⟩ := exists_sending hw false
  cases hclose : s.manualClose with
  | true => exact .closing hsend hclose (pollNext_closing hsend.send hclose)
  | false =>
      obtain ⟨answer, s₂, hread⟩ := exists_reading hsend.wf
      cases answer with
      | some answer =>
          exact .answered hsend hclose hread (pollNext_answer hsend.send hclose hread.loop)
      | none =>
          have hw₂ := PollStep.steps_wf (s₂.drainAll_steps order) hread.wf
          obtain ⟨t', done', rest', hsend'⟩ := exists_sending hw₂ (false || !done.isEmpty)
          exact .drained hsend hclose hread hsend'
            (pollNext_drain hsend.send hclose hread.loop hsend'.send)

/-- A call of `poll_next` does not panic, and consists of moves. -/
theorem pollNext_steps (hw : s.Wf) (order : List StreamID) :
    ∃ answer s', s.pollNext order = some (answer, s') ∧ ReflTransGen PollStep s s' := by
  cases s.course hw order with
  | closing hsend _ hpoll =>
      obtain ⟨answer, s', hclosing, hsteps⟩ := pollClosing_steps hsend.wf
      exact ⟨answer, s', hpoll.trans hclosing, hsend.steps.trans hsteps⟩
  | answered hsend _ hread hpoll => exact ⟨_, _, hpoll, hsend.steps.trans hread.steps⟩
  | @drained _ _ _ _ _ _ s₂ hsend _ hread hsend' hpoll =>
      obtain ⟨answer, s', hflush, hsteps⟩ := flushSent_steps hsend'.wf _
      refine ⟨answer, s', hpoll.trans hflush, ?_⟩
      exact (((hsend.steps.trans hread.steps).trans (s₂.drainAll_steps order)).trans
        hsend'.steps).trans hsteps

end YamuxSession

end YamuxLowMem
