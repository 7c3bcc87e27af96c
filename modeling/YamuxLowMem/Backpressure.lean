/-
YamuxLowMem/Backpressure.lean

How fast the peer takes our bytes changes nothing in the streams.

`poll_next` mixes two things: it moves frames from its queue to the write
buffer and on to the I/O object, and it reads, and drains the heads.  What the
second part does depends on nothing that the first part changes: `inner` is a
session without its write side, with every frame it has ever had to send put
back into the queue, and every call commutes with it.  So two sessions that are
used in the same way, and read the same, have the same streams and send the same
frames in the same order, however slowly their writes go through, whether these
fail, and whatever their write buffers can hold.
-/
import YamuxLowMem.SessionFrames
import YamuxLowMem.Tracking

namespace YamuxLowMem

open Async

/-! ### A session without its write side -/

/-- A transport that has written nothing. -/
def YamuxTransport.inner (t : YamuxTransport) : YamuxTransport :=
  { t with
    stream := { t.stream with writes := [], closes := [], accepted := [], calls := [] }
    maxWriterBuffer := 0
    writer := FrameWriter.new ChainedChunkBufferWriter.new
    sent := [] }

namespace YamuxSession

/-- A session that has sent nothing: all frames are still queued. -/
def inner (s : YamuxSession) : YamuxSession :=
  { s with transport := s.transport.inner, outQueue := s.outgoing }

/-- `poll_next` without its attempts to send. -/
def pollInner (s : YamuxSession) (order : List StreamID) : Option YamuxSession :=
  if s.manualClose then some s
  else do
    let (answer, s) ← s.inboundLoop (s.inboundWork + 1)
    match answer with
    | some _ => return s
    | none => return s.drainAll order

variable {s s' : YamuxSession}

/-- Sending changes nothing that is left. -/
theorem inner_eq {t : YamuxTransport} {rest : List Frame} (hreader : t.reader = s.transport.reader)
    (hreceived : t.received = s.transport.received)
    (hreads : t.stream.reads = s.transport.stream.reads)
    (hdelivered : t.stream.delivered = s.transport.stream.delivered)
    (houtgoing : t.sent ++ rest = s.outgoing) :
    inner { s with transport := t, outQueue := rest } = s.inner := by
  have hstream : t.inner = s.transport.inner := by
    simp only [YamuxTransport.inner, hreader, hreceived, hreads, hdelivered]
  rw [inner, inner, hstream]
  congr 1

end YamuxSession

/-! ### Reading -/

namespace YamuxTransport

theorem readLoop_inner (fuel : Nat) (t : YamuxTransport) :
    readLoop fuel t.inner = (readLoop fuel t).map fun r => (r.1, r.2.inner) := by
  induction fuel generalizing t with
  | zero => rfl
  | succ fuel ih =>
      have hreads : t.inner.stream.reads = t.stream.reads := rfl
      rw [readLoop, readLoop, Io.pollRead, Io.pollRead, hreads]
      rcases t.stream.reads with - | ⟨- | e | bs, rest⟩
      · rfl
      · rfl
      · rfl
      · by_cases hempty : (bs.take readBufferLen).isEmpty = true
        · simp only [if_pos hempty]
          rfl
        · -- neither the reader nor the bytes have to do with the write side
          have hreader : t.inner.reader = t.reader := rfl
          simp only [if_neg hempty, hreader]
          generalize ChunkView.ofVec (Vec.ofList (bs.take readBufferLen)) = chunk
          cases hpush : t.reader.pushBack chunk with
          | none => rfl
          | some r =>
              simp only [Option.bind_eq_bind, Option.bind_some]
              cases hnext : r.nextFrame with
              | none => rfl
              | some answer =>
                  obtain ⟨- | - | f, r₁⟩ := answer
                  · rfl
                  · exact ih { t with
                      stream := { t.stream with
                        reads := rest
                        delivered := t.stream.delivered ++ bs.take readBufferLen }
                      reader := r₁ }
                  · rfl

theorem pollNext_inner (t : YamuxTransport) :
    t.inner.pollNext = t.pollNext.map fun r => (r.1, r.2.inner) := by
  have hreader : t.inner.reader = t.reader := rfl
  rw [pollNext, pollNext, hreader]
  cases hnext : t.reader.nextFrame with
  | none => rfl
  | some answer =>
      obtain ⟨- | - | f, r⟩ := answer
      · rfl
      · exact readLoop_inner _ { t with reader := r }
      · rfl

end YamuxTransport

namespace YamuxSession

variable {s s' : YamuxSession}

theorem logError_inner (s : YamuxSession) (id : StreamID)
    (result : Except YamuxStreamHeadError Unit) :
    (s.logError id result).inner = s.inner.logError id result := by
  cases result <;> rfl

/-- What a frame does has nothing to do with the write side. -/
theorem onFrame_inner (s : YamuxSession) (frame : Frame) :
    s.inner.onFrame frame = ((s.onFrame frame).1, (s.onFrame frame).2.inner) := by
  match frame with
  | .session (.goAway code) => rfl
  | .session (.ping flags code) =>
      simp only [onFrame]
      split
      · refine congrArg _ ?_
        simp only [inner, outgoing, List.append_assoc]
      · rfl
  | .stream id event =>
      have hstreams : s.inner.streams = s.streams := rfl
      simp only [onFrame, hstreams]
      cases hp : s.streams.lookup id with
      | some p =>
          apply Prod.ext
          · rfl
          · show _ = inner (logError _ _ _)
            rw [logError_inner]
            rfl
      | none =>
          cases hf : event.flags with
          | none => rfl
          | some flags =>
              cases hsyn : flags.syn with
              | false => simp [hsyn]
              | true =>
                  simp only [hsyn, if_true]
                  apply Prod.ext
                  · rfl
                  · show _ = inner (logError _ _ _)
                    rw [logError_inner]
                    rfl

theorem inboundLoop_inner (fuel : Nat) (hw : s.Wf) :
    s.inner.inboundLoop fuel = (s.inboundLoop fuel).map fun r => (r.1, r.2.inner) := by
  induction fuel generalizing s with
  | zero => rfl
  | succ fuel ih =>
      obtain ⟨event, t, pushed, hnext, hreceive⟩ := YamuxTransport.pollNext_spec hw.reader
      have hstep : PollStep s _ := .receive hreceive
      have hnext' : s.inner.transport.pollNext = some (event, t.inner) := by
        show s.transport.inner.pollNext = _
        rw [YamuxTransport.pollNext_inner, hnext]
        rfl
      have hinner : ({ s.inner with transport := t.inner } : YamuxSession) =
          inner { s with transport := t } := by
        simp only [inner, outgoing, hreceive.sent]
      rw [inboundLoop, inboundLoop, hnext, hnext']
      simp only [Option.bind_eq_bind, Option.bind_some, hinner]
      rcases event with - | - | e | f
      · rfl
      · rfl
      · rfl
      · simp only [onFrame_inner]
        cases hframe : YamuxSession.onFrame { s with transport := t } f with
        | mk answer s₁ =>
            have hs₁ : { s with transport := t }.deliver (.ready (some (.ok f))) = s₁ :=
              congrArg Prod.snd hframe
            rw [hs₁] at hstep
            cases answer with
            | some answer => rfl
            | none => exact ih (hstep.wf hw)

/-- Draining does not either. -/
theorem drainHeads_inner (order : List StreamID) (s : YamuxSession) :
    s.inner.drainHeads order = ((s.drainHeads order).1.inner, (s.drainHeads order).2) := by
  induction order generalizing s with
  | nil => rfl
  | cons id order ih =>
      have hstreams : s.inner.streams = s.streams := rfl
      rw [drainHeads, drainHeads, hstreams]
      cases hp : s.streams.lookup id with
      | none => exact ih s
      | some p =>
          have hone : s.inner.drainStream id p =
              ((s.drainStream id p).1.inner, (s.drainStream id p).2) := by
            simp only [drainStream, inner, outgoing, List.append_assoc]
            rfl
          simp only [hone, ih]

theorem drainAll_inner (order : List StreamID) (s : YamuxSession) :
    s.inner.drainAll order = (s.drainAll order).inner := by
  have hremove : ∀ (ids : List StreamID) (s : YamuxSession),
      ids.foldl removeStream s.inner = (ids.foldl removeStream s).inner := by
    intro ids
    induction ids with
    | nil => exact fun _ => rfl
    | cons id ids ih => exact fun s => ih (s.removeStream id)
  rw [drainAll, drainAll, drainHeads_inner]
  exact hremove _ _

theorem Sending.inner {sent : Bool} {t : YamuxTransport} {done rest : List Frame}
    (h : Sending s sent t done rest) :
    inner { s with transport := t, outQueue := rest } = s.inner := by
  refine inner_eq h.run.reader h.run.received h.run.reads h.run.delivered ?_
  rw [h.run.sent, List.append_assoc, ← h.split]
  rfl

theorem flush_inner {result : Poll (Except YamuxTransportError Unit)} {t : YamuxTransport}
    (h : YamuxTransport.Flush result s.transport t) : inner { s with transport := t } = s.inner :=
  inner_eq h.reader h.received h.flushed.reads h.flushed.delivered (congrArg (· ++ _) h.sent)

theorem pollClosing_inner (hw : s.Wf) :
    s.pollClosing.map (fun r => r.2.inner) = some s.inner := by
  obtain ⟨result, t, -, hflush, hclosing⟩ := pollClosing_spec hw
  rw [hclosing]
  rcases result with - | e | u
  · exact congrArg some (flush_inner hflush)
  · exact congrArg some (flush_inner hflush)
  · -- the I/O object is asked to close, and answers
    have hclose : t.stream.pollClose.2 = { t.stream with
        closes := t.stream.pollClose.2.closes } := by
      rw [Io.pollClose]
      split <;> rfl
    refine congrArg some (Eq.trans ?_ (flush_inner hflush))
    rw [hclose]
    rfl

theorem flushSent_inner (hw : s.Wf) (sent : Bool) :
    (s.flushSent sent).map (fun r => r.2.inner) = some s.inner := by
  cases sent with
  | false => rfl
  | true =>
      obtain ⟨result, t, -, hflush, hsent⟩ := flushSent_spec hw
      rw [hsent]
      rcases result with - | e | u <;> exact congrArg some (flush_inner hflush)

theorem Reading.inner {answer : Option (Poll (Option YamuxStream))} (hw : s.Wf)
    (h : Reading s answer s') :
    s.inner.inboundLoop (s.inner.inboundWork + 1) = some (answer, s'.inner) := by
  have hwork : s.inner.inboundWork = s.inboundWork := rfl
  rw [hwork, inboundLoop_inner _ hw, h.loop]
  rfl

/-- A whole call: what it leaves is decided by what it reads. -/
theorem pollNext_inner (hw : s.Wf) (order : List StreamID) :
    (s.pollNext order).map (fun r => r.2.inner) = s.inner.pollInner order := by
  have hclosing : s.inner.manualClose = s.manualClose := rfl
  cases s.course hw order with
  | closing hsend hclose hpoll =>
      rw [hpoll, pollClosing_inner hsend.wf, hsend.inner, pollInner, hclosing, if_pos hclose]
  | answered hsend hclose hread hpoll =>
      have hloop := hread.inner hsend.wf
      rw [hsend.inner] at hloop
      rw [hpoll, pollInner, hclosing, if_neg (Bool.eq_false_iff.mp hclose), hloop]
      rfl
  | @drained _ _ _ _ _ _ s₂ hsend hclose hread hsend' hpoll =>
      have hloop := hread.inner hsend.wf
      rw [hsend.inner] at hloop
      rw [hpoll, flushSent_inner hsend'.wf, hsend'.inner, pollInner, hclosing,
        if_neg (Bool.eq_false_iff.mp hclose), hloop, ← drainAll_inner]
      rfl

/-! ### A run -/

theorem openStream_inner (s : YamuxSession) : s.openStream.inner = s.inner.openStream := rfl

theorem close_inner (s : YamuxSession) (code : UInt32) :
    (s.close code).inner = s.inner.close code := by
  simp only [inner, close, outgoing, List.append_assoc]

theorem handleOp_inner (s : YamuxSession) (ref : HandleRef) (op : HandleOp) :
    (s.handleOp ref op).inner = s.inner.handleOp ref op := by
  have hstreams : s.inner.streams = s.streams := rfl
  cases ref with
  | dropped index => rfl
  | registered id =>
      rw [handleOp, handleOp, hstreams]
      cases s.streams.lookup id <;> rfl

end YamuxSession

/-- A move whose call of `poll_next` gets no write through. -/
def Move.unwritten : Move → Move
  | .poll _ reads _ order => .poll [] reads [] order
  | m => m

namespace YamuxSession

variable {s s' s₁ : YamuxSession}

theorem possible_unwritten (m : Move) : m.unwritten.Possible s.inner ↔ m.Possible s := by
  cases m <;> exact Iff.rfl

/-- A move, as far as it has to do with reading. -/
def moveInner (s : YamuxSession) : Move → Option YamuxSession
  | .openStream => some s.openStream
  | .close code => some (s.close code)
  | .handle ref op => some (s.handleOp ref op)
  | .poll writes reads closes order => (s.behave writes reads closes).pollInner order

theorem move_inner (hw : s.Wf) (m : Move) :
    (s.move m).map inner = s.inner.moveInner m.unwritten := by
  cases m with
  | openStream => exact congrArg some s.openStream_inner
  | close code => exact congrArg some (s.close_inner code)
  | handle ref op => exact congrArg some (s.handleOp_inner ref op)
  | poll writes reads closes order =>
      have hw' : (s.behave writes reads closes).Wf := ⟨hw.writer, hw.reader⟩
      have hbehave : (s.behave writes reads closes).inner = s.inner.behave [] reads [] := rfl
      show _ = (s.inner.behave [] reads []).pollInner order
      rw [move, Option.map_map, ← hbehave, ← pollNext_inner hw']
      rfl

/-- Two sessions that differ in what they have written only can be used in the
same way, and stay so. -/
theorem run_inner {moves moves' : List Move} (hw : s.Wf) (hw' : s'.Wf)
    (hinner : s'.inner = s.inner)
    (hsame : moves'.map Move.unwritten = moves.map Move.unwritten) (hrun : s.run moves = some s₁) :
    ∃ s₁', s'.run moves' = some s₁' ∧ s₁'.inner = s₁.inner := by
  induction moves generalizing s s' moves' with
  | nil =>
      obtain rfl := List.map_eq_nil_iff.mp hsame
      obtain rfl := Option.some.inj hrun
      exact ⟨s', rfl, hinner⟩
  | cons m moves ih =>
      obtain ⟨m', moves', rfl, hm, hmoves⟩ := List.map_eq_cons_iff.mp hsame
      obtain ⟨hpossible, s₂, hmove, hrest⟩ := run_cons.mp hrun
      -- the first moves lead to sessions that are alike again
      have hmove' : (s'.move m').map inner = some s₂.inner := by
        rw [move_inner hw', hinner, hm, ← move_inner hw, hmove]
        rfl
      obtain ⟨s₂', hmove', hinner₂⟩ := Option.map_eq_some_iff.mp hmove'
      have hpossible' : m'.Possible s' := by
        rw [← possible_unwritten, hinner, hm, possible_unwritten]
        exact hpossible
      obtain ⟨s₁', hrest', hinner₁⟩ :=
        ih (move_wf hw hmove) (move_wf hw' hmove') hinner₂ hmoves hrest
      exact ⟨s₁', run_cons.mpr ⟨hpossible', s₂', hmove', hrest'⟩, hinner₁⟩

end YamuxSession

/-- The sessions have the same streams, have received the same, and send the
same frames in the same order; so what one has written is the beginning of what
the other has. -/
structure Alike (s s' : YamuxSession) : Prop where
  streams : s'.streams = s.streams
  dropped : s'.dropped = s.dropped
  nextStreamId : s'.nextStreamId = s.nextStreamId
  manualClose : s'.manualClose = s.manualClose
  errors : s'.errors = s.errors
  reader : s'.transport.reader = s.transport.reader
  delivered : s'.transport.stream.delivered = s.transport.stream.delivered
  received : s'.transport.received = s.transport.received
  outgoing : s'.outgoing = s.outgoing
  accepted : s.transport.stream.accepted <+: s'.transport.stream.accepted ∨
    s'.transport.stream.accepted <+: s.transport.stream.accepted

/-- What has been written is the beginning of what there is to send. -/
theorem Outbound.accepted_prefix {s : YamuxSession} (h : Outbound s) :
    s.transport.stream.accepted <+: encoding s.outgoing := by
  rw [YamuxSession.outgoing, encoding_append, ← h.bytes, List.append_assoc]
  exact List.prefix_append _ _

theorem Alike.of_inner {s s' : YamuxSession} (h : s'.inner = s.inner) (ho : Outbound s)
    (ho' : Outbound s') : Alike s s' := by
  obtain ⟨htransport, hstreams, hnext, houtgoing, hclose, hdropped, herrors⟩ :=
    YamuxSession.mk.inj h
  obtain ⟨hstream, -, -, hreader, -, hreceived⟩ := YamuxTransport.mk.inj htransport
  have hdelivered : s'.transport.stream.delivered = s.transport.stream.delivered :=
    (Io.mk.inj hstream).2.2.2.2.1
  have hprefix := ho'.accepted_prefix
  rw [houtgoing] at hprefix
  exact ⟨hstreams, hdropped, hnext, hclose, herrors, hreader, hdelivered, hreceived, houtgoing,
    List.prefix_or_prefix_of_prefix ho.accepted_prefix hprefix⟩

/-- In every run, the answers to the writes and to the close of the I/O object,
and the limit on the write buffer, have no influence on the streams, on what is
read and on the frames to be sent: with any other lists of answers the same
calls return, and lead to a session that is alike.  What `poll_next` answers is
not compared, as an error of the last flush is an answer of its own. -/
theorem writing_is_invisible {isServer : Bool} {maxWriteBuffer maxWriteBuffer' : Nat}
    {moves moves' : List Move} {s : YamuxSession}
    (hrun : (YamuxSession.new Io.new isServer maxWriteBuffer).run moves = some s)
    (hsame : moves'.map Move.unwritten = moves.map Move.unwritten) :
    ∃ s', (YamuxSession.new Io.new isServer maxWriteBuffer').run moves' = some s' ∧
      Alike s s' := by
  have hw := YamuxSession.wf_new Io.new isServer maxWriteBuffer
  have hw' := YamuxSession.wf_new Io.new isServer maxWriteBuffer'
  have hnew : (YamuxSession.new Io.new isServer maxWriteBuffer').inner =
      (YamuxSession.new Io.new isServer maxWriteBuffer).inner := rfl
  obtain ⟨s', hrun', hinner⟩ := YamuxSession.run_inner hw hw' hnew hsame hrun
  have hreach := sessionMachine_reachable (reachable_of_run (.init rfl) hrun)
  have hreach' := sessionMachine_reachable (reachable_of_run (.init rfl) hrun')
  exact ⟨s', hrun', .of_inner hinner hreach.outbound hreach'.outbound⟩

/-- A stream is opened and written to, while the peer pings. -/
def talk (writes writes' : List (Poll (Except IoError Nat))) : List Move :=
  [.openStream, .poll writes [] [] [⟨1⟩], .handle (.registered ⟨1⟩) (.write [104, 105]),
    .poll writes' [.ready (.ok (Frame.session (.ping Flags.onlySyn 7)).encode)] [] [⟨1⟩]]

theorem talk_unwritten (writes writes' writes₂ writes₂' : List (Poll (Except IoError Nat))) :
    (talk writes₂ writes₂').map Move.unwritten = (talk writes writes').map Move.unwritten := rfl

/-- One session writes everything at once; with a limit of zero, and an I/O
object that fails and then takes nothing, the other one fares alike. -/
theorem writing_is_invisible_talk :
    ∃ s s', (YamuxSession.new Io.new false 1000).run
        (talk [.ready (.ok 12)] [.ready (.ok 2), .ready (.ok 100), .ready (.ok 100)]) = some s ∧
      (YamuxSession.new Io.new false 0).run (talk [.ready (.error "broken")] []) = some s' ∧
      Alike s s' := by
  obtain ⟨s, hrun⟩ := Option.isSome_iff_exists.mp (by decide +kernel : Option.isSome
    ((YamuxSession.new Io.new false 1000).run
      (talk [.ready (.ok 12)] [.ready (.ok 2), .ready (.ok 100), .ready (.ok 100)])) = true)
  obtain ⟨s', hrun', halike⟩ :=
    writing_is_invisible hrun (talk_unwritten _ _ [.ready (.error "broken")] [])
  exact ⟨s, s', hrun, hrun', halike⟩

end YamuxLowMem
