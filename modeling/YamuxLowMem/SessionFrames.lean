/-
YamuxLowMem/SessionFrames.lean

The frames a session sends on its own account: answers to pings, and `GoAway`.

Both go into the one queue that the heads are drained into as well, and are
handed to the transport from there.  So they are accounted for over the frames
sent and queued together: an answer for each ping that asks for one, in the
order in which the pings came, and a `GoAway` for each call of `close`.  Once
`close` has been called, `poll_next` only empties the queue: no more frames
come in, and what the handles still hold stays where it is.
-/
import YamuxLowMem.Tracking

namespace YamuxLowMem

open Async Relation

/-! ### Session-level events -/

namespace Frame

def sessionEvent : Frame → Option FrameSessionEvent
  | .session event => some event
  | .stream _ _ => none

/-- What a session answers to a frame. -/
def pongs : Frame → List FrameSessionEvent
  | .session (.ping flags code) => if flags.syn then [.ping Flags.onlyAck code] else []
  | _ => []

end Frame

namespace FrameSessionEvent

def isPing : FrameSessionEvent → Bool
  | .ping _ _ => true
  | .goAway _ => false

def isGoAway (e : FrameSessionEvent) : Bool := !e.isPing

end FrameSessionEvent

/-- The session-level events of a sequence of frames. -/
def sessionEvents (fs : List Frame) : List FrameSessionEvent := fs.filterMap Frame.sessionEvent

/-- What a move puts into the queue itself. -/
def Move.goAways : Move → List FrameSessionEvent
  | .close code => [.goAway code]
  | _ => []

section SessionEvents

variable (fs fs' : List Frame) (id : StreamID) (es : List FrameStreamEvent)

@[simp] theorem sessionEvents_append :
    sessionEvents (fs ++ fs') = sessionEvents fs ++ sessionEvents fs' := List.filterMap_append

@[simp] theorem sessionEvents_session (event : FrameSessionEvent) :
    sessionEvents [.session event] = [event] := rfl

@[simp] theorem sessionEvents_stream : sessionEvents (es.map (Frame.stream id)) = [] := by
  simp [sessionEvents, Frame.sessionEvent]

theorem pongs_isPing (f : Frame) : ∀ e ∈ f.pongs, e.isPing = true := by
  match f with
  | .session (.ping flags code) =>
      simp only [Frame.pongs]
      split <;> simp [FrameSessionEvent.isPing]
  | .session (.goAway code) | .stream id event => simp [Frame.pongs]

theorem goAways_isGoAway (m : Move) : ∀ e ∈ m.goAways, e.isGoAway = true := by
  cases m <;> simp [Move.goAways, FrameSessionEvent.isGoAway, FrameSessionEvent.isPing]

end SessionEvents

/-! ### What comes in is answered -/

section Steps

variable {s s' : YamuxSession}

/-- The frames `new` have come in, and `own` has been queued besides the
answers to them. -/
structure Answered (s s' : YamuxSession) (own : List FrameSessionEvent) (new : List Frame) :
    Prop where
  received : s'.transport.received = s.transport.received ++ new
  events : sessionEvents s'.outgoing = sessionEvents s.outgoing ++ own ++ new.flatMap Frame.pongs

namespace Answered

theorem quiet {own : List FrameSessionEvent}
    (hreceived : s'.transport.received = s.transport.received)
    (hevents : sessionEvents s'.outgoing = sessionEvents s.outgoing ++ own) :
    Answered s s' own [] :=
  ⟨by rw [hreceived, List.append_nil], by rw [hevents, List.flatMap_nil, List.append_nil]⟩

theorem trans {s₁ s₂ s₃ : YamuxSession} {new new' : List Frame} (h : Answered s₁ s₂ [] new)
    (h' : Answered s₂ s₃ [] new') : Answered s₁ s₃ [] (new ++ new') := by
  refine ⟨?_, ?_⟩
  · rw [h'.received, h.received, List.append_assoc]
  · simp only [h'.events, h.events, List.append_nil, List.flatMap_append, List.append_assoc]

end Answered

theorem YamuxSession.logError_outgoing (id : StreamID)
    (result : Except YamuxStreamHeadError Unit) :
    (s.logError id result).outgoing = s.outgoing := by
  cases result <;> rfl

/-- A frame is answered if it is a ping that asks for it. -/
theorem YamuxSession.onFrame_answered (s : YamuxSession) (frame : Frame) :
    sessionEvents (s.onFrame frame).2.outgoing = sessionEvents s.outgoing ++ frame.pongs := by
  match frame with
  | .session (.goAway code) => simp [onFrame, Frame.pongs]
  | .session (.ping flags code) =>
      cases hsyn : flags.syn with
      | false => simp [onFrame, Frame.pongs, hsyn]
      | true =>
          simp only [onFrame, Frame.pongs, hsyn, if_true, outgoing]
          rw [← List.append_assoc, sessionEvents_append, sessionEvents_session]
  | .stream id event =>
      have hnothing : (Frame.stream id event).pongs = [] := rfl
      rw [hnothing, List.append_nil]
      simp only [onFrame]
      split
      · rw [logError_outgoing]
        rfl
      · split
        · split
          · rw [logError_outgoing]
            rfl
          · rfl
        · rfl

theorem PollStep.answered (h : PollStep s s') : ∃ new, Answered s s' [] new := by
  cases h with
  | @flush t result hflush =>
      refine ⟨[], .quiet hflush.received ?_⟩
      show sessionEvents (t.sent ++ s.outQueue) = _
      rw [hflush.sent, List.append_nil]
      rfl
  | @send t out rest hq hsend =>
      obtain ⟨b, rfl⟩ := YamuxTransport.startSend_eq hsend
      refine ⟨[], .quiet rfl ?_⟩
      show sessionEvents (s.transport.sent ++ [out] ++ rest) = _
      rw [YamuxSession.outgoing, hq, List.append_assoc, List.singleton_append, List.append_nil]
  | closeIo => exact ⟨[], .quiet rfl (List.append_nil _).symm⟩
  | @receive t event pushed hreceive =>
      refine ⟨eventFrames event, ?_, ?_⟩
      · rw [YamuxSession.deliver_transport]
        exact hreceive.received
      · have hsent : ({ s with transport := t } : YamuxSession).outgoing = s.outgoing := by
          rw [YamuxSession.outgoing, hreceive.sent]
          rfl
        rw [List.append_nil, ← hsent]
        rcases event with - | - | e | frame
        · exact (List.append_nil _).symm
        · exact (List.append_nil _).symm
        · exact (List.append_nil _).symm
        · have hframe := YamuxSession.onFrame_answered { s with transport := t } frame
          rwa [eventFrames, List.flatMap_singleton]
  | @drain id p hp =>
      refine ⟨[], .quiet rfl ?_⟩
      show sessionEvents (s.transport.sent ++ (s.outQueue ++ List.map (Frame.stream id) _)) = _
      rw [← List.append_assoc, sessionEvents_append, sessionEvents_stream]
      rfl
  | remove id => exact ⟨[], .quiet rfl (List.append_nil _).symm⟩

theorem PollStep.steps_answered (h : ReflTransGen PollStep s s') :
    ∃ new, Answered s s' [] new := by
  induction h with
  | refl => exact ⟨[], .quiet rfl (List.append_nil _).symm⟩
  | tail _ hstep ih =>
      obtain ⟨new, hnew⟩ := ih
      obtain ⟨new', hnew'⟩ := hstep.answered
      exact ⟨new ++ new', hnew.trans hnew'⟩

/-- One move of a run. -/
theorem YamuxSession.move_answered {m : Move} (hw : s.Wf) (hmove : s.move m = some s') :
    ∃ new, Answered s s' m.goAways new := by
  cases m with
  | openStream =>
      obtain rfl := Option.some.inj hmove
      exact ⟨[], .quiet rfl (List.append_nil _).symm⟩
  | close code =>
      obtain rfl := Option.some.inj hmove
      refine ⟨[], .quiet rfl ?_⟩
      show sessionEvents (s.transport.sent ++ (s.outQueue ++ [_])) = _
      rw [← List.append_assoc, sessionEvents_append, sessionEvents_session]
      rfl
  | handle ref op =>
      obtain rfl := Option.some.inj hmove
      refine ⟨[], .quiet ?_ ?_⟩
      · rw [handleOp_transport]
      · rw [YamuxSession.handleOp_frame]
        exact (List.append_nil _).symm
  | poll writes reads closes order =>
      have hw' : (s.behave writes reads closes).Wf := ⟨hw.writer, hw.reader⟩
      obtain ⟨answer, s₁, hpoll, hsteps⟩ := pollNext_steps hw' order
      rw [YamuxSession.move, hpoll] at hmove
      obtain rfl := Option.some.inj hmove
      obtain ⟨new, hnew⟩ := PollStep.steps_answered hsteps
      exact ⟨new, hnew.received, hnew.events⟩

/-- Moves keep the buffers in order. -/
theorem YamuxSession.move_wf {m : Move} (hw : s.Wf) (hmove : s.move m = some s') : s'.Wf := by
  have hsteps : (stepMachine false 0 anything).Steps s s' := move_steps hw trivial hmove
  have hstep : ∀ a b : YamuxSession, a.Wf → SessionStep anything a b → b.Wf :=
    fun _ _ hw hstep => hstep.wf hw
  exact hsteps.preserves hstep hw

end Steps

/-! ### The accounts of a run -/

section Runs

variable {s s' : YamuxSession}

/-- The pings and the `GoAway`s of a run, each in their order. -/
theorem YamuxSession.run_answered {moves : List Move} (hw : s.Wf)
    (hrun : s.run moves = some s') :
    ∃ new, s'.transport.received = s.transport.received ++ new ∧
      (sessionEvents s'.outgoing).filter FrameSessionEvent.isPing =
        (sessionEvents s.outgoing).filter FrameSessionEvent.isPing ++ new.flatMap Frame.pongs ∧
      (sessionEvents s'.outgoing).filter FrameSessionEvent.isGoAway =
        (sessionEvents s.outgoing).filter FrameSessionEvent.isGoAway ++
          moves.flatMap Move.goAways := by
  induction moves generalizing s with
  | nil =>
      obtain rfl := Option.some.inj hrun
      exact ⟨[], by simp⟩
  | cons m moves ih =>
      obtain ⟨-, s₁, hmove, hrest⟩ := YamuxSession.run_cons.mp hrun
      obtain ⟨new, hstep⟩ := move_answered hw hmove
      obtain ⟨new', hreceived, hpings, hgoAways⟩ := ih (move_wf hw hmove) hrest
      -- of what one move adds, the answers are pings and the rest are not
      have hpongs : (new.flatMap Frame.pongs).filter FrameSessionEvent.isPing =
            new.flatMap Frame.pongs ∧
          (new.flatMap Frame.pongs).filter FrameSessionEvent.isGoAway = [] := by
        have hall : ∀ e ∈ new.flatMap Frame.pongs, e.isPing = true := by
          intro e he
          obtain ⟨f, -, hf⟩ := List.mem_flatMap.mp he
          exact pongs_isPing f e hf
        refine ⟨List.filter_eq_self.mpr hall, List.filter_eq_nil_iff.mpr fun e he => ?_⟩
        simp [FrameSessionEvent.isGoAway, hall e he]
      have hown : m.goAways.filter FrameSessionEvent.isPing = [] ∧
          m.goAways.filter FrameSessionEvent.isGoAway = m.goAways := by
        have hall := goAways_isGoAway m
        refine ⟨List.filter_eq_nil_iff.mpr fun e he => ?_, List.filter_eq_self.mpr hall⟩
        have hnot := hall e he
        rw [FrameSessionEvent.isGoAway] at hnot
        simpa using hnot
      refine ⟨new ++ new', ?_, ?_, ?_⟩
      · rw [hreceived, hstep.received, List.append_assoc]
      · simp only [hpings, hstep.events, List.filter_append, hpongs.1, hown.1, List.nil_append,
          List.flatMap_append, List.append_assoc]
      · simp only [hgoAways, hstep.events, List.filter_append, hpongs.2, hown.2, List.append_nil,
          List.flatMap_cons, List.append_assoc]

/-- In every run, whatever comes in and whatever the I/O object does: the
pings sent or queued are one `ACK` for each `SYN` ping received, with its code
and in the order received; the `GoAway`s sent or queued are one for each call
of `close`, with its code and in the order of the calls. -/
theorem session_frames_accounted {isServer : Bool} {maxWriteBuffer : Nat} {moves : List Move}
    (hrun : (YamuxSession.new Io.new isServer maxWriteBuffer).run moves = some s) :
    (sessionEvents s.outgoing).filter FrameSessionEvent.isPing =
        s.transport.received.flatMap Frame.pongs ∧
      (sessionEvents s.outgoing).filter FrameSessionEvent.isGoAway =
        moves.flatMap Move.goAways := by
  obtain ⟨new, hreceived, hpings, hgoAways⟩ :=
    YamuxSession.run_answered (YamuxSession.wf_new _ _ _) hrun
  have hnew : s.transport.received = new := hreceived
  rw [hnew]
  exact ⟨hpings, hgoAways⟩

/-- A ping comes, `close` is called, and what is queued is sent. -/
def pingedAndClosed : List Move :=
  [.poll [] [.ready (.ok [0, 2, 0, 1, 0, 0, 0, 0, 0, 0, 0, 9])] [] [], .close 3,
    .poll (List.replicate 2 (.ready (.ok 100))) [] [] []]

theorem session_frames_accounted_closed :
    ∃ s, (YamuxSession.new Io.new true 0).run pingedAndClosed = some s ∧
      (sessionEvents s.outgoing).filter FrameSessionEvent.isPing =
        s.transport.received.flatMap Frame.pongs ∧
      (sessionEvents s.outgoing).filter FrameSessionEvent.isGoAway = [.goAway 3] := by
  obtain ⟨s, hs⟩ := Option.isSome_iff_exists.mp (by decide +kernel :
    ((YamuxSession.new Io.new true 0).run pingedAndClosed).isSome = true)
  exact ⟨s, hs, session_frames_accounted hs⟩

/-! ### After `close` -/

/-- Nothing comes in, and nothing but `own` is queued. -/
structure Shut (s s' : YamuxSession) (own : List FrameSessionEvent) : Prop where
  manualClose : s'.manualClose = true
  reader : s'.transport.reader = s.transport.reader
  received : s'.transport.received = s.transport.received
  delivered : s'.transport.stream.delivered = s.transport.stream.delivered
  outgoing : s'.outgoing = s.outgoing ++ own.map Frame.session

/-- Once `close` has been called, a poll sends what is queued and no more. -/
theorem YamuxSession.pollNext_shut (hw : s.Wf) (hclose : s.manualClose = true)
    (order : List StreamID) :
    ∃ answer s', s.pollNext order = some (answer, s') ∧ Shut s s' [] := by
  obtain ⟨t, done, rest, hsend⟩ := exists_sending hw false
  obtain ⟨result, t', -, hflush, hclosing⟩ := pollClosing_spec hsend.wf
  have hpoll : s.pollNext order = _ := (pollNext_closing hsend.send hclose).trans hclosing
  have hrun := hsend.run
  -- whatever becomes of the I/O object
  have hafter : ∀ io : Io, io.delivered = t'.stream.delivered →
      Shut s { s with transport := { t' with stream := io }, outQueue := rest } [] := by
    intro io hio
    refine ⟨hclose, ?_, ?_, ?_, ?_⟩
    · exact hflush.reader.trans hrun.reader
    · exact hflush.received.trans hrun.received
    · exact hio.trans (hflush.flushed.delivered.trans hrun.delivered)
    · show t'.sent ++ rest = _
      rw [hflush.sent, hrun.sent, List.append_assoc, ← hsend.split, List.map_nil, List.append_nil]
      rfl
  rcases result with - | e | u
  · exact ⟨_, _, hpoll, hafter t'.stream rfl⟩
  · exact ⟨_, _, hpoll, hafter t'.stream rfl⟩
  · refine ⟨_, _, hpoll, hafter t'.stream.pollClose.2 ?_⟩
    simp only [Io.pollClose]
    split <;> rfl

theorem YamuxSession.move_shut {m : Move} (hw : s.Wf) (hclose : s.manualClose = true)
    (hmove : s.move m = some s') : Shut s s' m.goAways := by
  cases m with
  | openStream =>
      obtain rfl := Option.some.inj hmove
      exact ⟨hclose, rfl, rfl, rfl, (List.append_nil _).symm⟩
  | close code =>
      obtain rfl := Option.some.inj hmove
      exact ⟨rfl, rfl, rfl, rfl, (List.append_assoc _ _ _).symm⟩
  | handle ref op =>
      obtain rfl := Option.some.inj hmove
      rw [YamuxSession.handleOp_frame]
      exact ⟨hclose, rfl, rfl, rfl, (List.append_nil _).symm⟩
  | poll writes reads closes order =>
      have hw' : (s.behave writes reads closes).Wf := ⟨hw.writer, hw.reader⟩
      obtain ⟨answer, s₁, hpoll, hshut⟩ :=
        pollNext_shut (s := s.behave writes reads closes) hw' hclose order
      rw [YamuxSession.move, hpoll] at hmove
      obtain rfl := Option.some.inj hmove
      exact ⟨hshut.manualClose, hshut.reader, hshut.received, hshut.delivered,
        hshut.outgoing⟩

theorem YamuxSession.run_shut {moves : List Move} (hw : s.Wf) (hclose : s.manualClose = true)
    (hrun : s.run moves = some s') : Shut s s' (moves.flatMap Move.goAways) := by
  induction moves generalizing s with
  | nil =>
      obtain rfl := Option.some.inj hrun
      exact ⟨hclose, rfl, rfl, rfl, (List.append_nil _).symm⟩
  | cons m moves ih =>
      obtain ⟨-, s₁, hmove, hrest⟩ := YamuxSession.run_cons.mp hrun
      have hfirst := move_shut hw hclose hmove
      have hlast := ih (move_wf hw hmove) hfirst.manualClose hrest
      refine ⟨hlast.manualClose, hlast.reader.trans hfirst.reader,
        hlast.received.trans hfirst.received, hlast.delivered.trans hfirst.delivered, ?_⟩
      rw [hlast.outgoing, hfirst.outgoing, List.flatMap_cons, List.map_append, List.append_assoc]

/-- From a call of `close` on, in every run: no byte is read and no frame comes
in, and behind the frames sent or queued before the call there will never be
anything but its `GoAway` and those of later calls. -/
theorem close_is_final {isServer : Bool} {maxWriteBuffer : Nat} {pre post : List Move}
    {code : UInt32}
    (hpre : (YamuxSession.new Io.new isServer maxWriteBuffer).run pre = some s)
    (hpost : (s.close code).run post = some s') :
    s'.transport.stream.delivered = s.transport.stream.delivered ∧
      s'.transport.received = s.transport.received ∧
      s'.outgoing = s.outgoing ++
        (.goAway code :: post.flatMap Move.goAways).map Frame.session := by
  have hreach := sessionMachine_reachable (reachable_of_run (.init rfl) hpre)
  have hw : s.Wf := hreach.wf
  have hshut := YamuxSession.run_shut (s := s.close code) ⟨hw.writer, hw.reader⟩ rfl hpost
  refine ⟨hshut.delivered, hshut.received, ?_⟩
  rw [hshut.outgoing, List.map_cons]
  show s.transport.sent ++ (s.outQueue ++ [_]) ++ _ = _
  simp only [YamuxSession.outgoing, List.append_assoc, List.singleton_append]

/-- Bytes come for a session that has been closed. -/
theorem close_is_final_pinged :
    ∃ s, ((YamuxSession.new Io.new true 0).close 3).run
        [.poll [.ready (.ok 100)] [.ready (.ok [0, 2, 0, 1, 0, 0, 0, 0, 0, 0, 0, 9])] [] [],
          .close 4] = some s ∧
      s.transport.received = [] ∧
      s.outgoing = [.session (.goAway 3), .session (.goAway 4)] := by
  obtain ⟨s, hs⟩ := Option.isSome_iff_exists.mp (by decide +kernel : Option.isSome
    (((YamuxSession.new Io.new true 0).close 3).run
      [.poll [.ready (.ok 100)] [.ready (.ok [0, 2, 0, 1, 0, 0, 0, 0, 0, 0, 0, 9])] [] [],
        .close 4]) = true)
  have hnew : (YamuxSession.new Io.new true 0).run [] = some (YamuxSession.new Io.new true 0) := rfl
  obtain ⟨-, hreceived, houtgoing⟩ := close_is_final hnew hs
  exact ⟨s, hs, hreceived, houtgoing⟩

end Runs

end YamuxLowMem
