/-
YamuxLowMem/StreamAccounts.lean

What a session sends and receives, stream by stream, whoever the peer is.

The frames of an id on the way out are what its streams have yielded, one after
the other, and what they have taken in is part of the frames that came in under
the id, in order: no event is lost, repeated or made up between a head and the
wire, or reaches another stream.
-/
import YamuxLowMem.SessionFrames
import YamuxLowMem.EndOfFile
import YamuxLowMem.StreamIds
import YamuxLowMem.StreamsOf
import YamuxLowMem.InboundTurns
import YamuxLowMem.Tended

namespace YamuxLowMem

open Async Relation

/-! ### Frames and events -/

/-- The frames on their way out are what the streams have yielded, and what the
streams have taken in is part of the frames that came in. -/
structure Accounts (s : YamuxSession) : Prop where
  outgoing : ∀ id, (s.streamsOf id).flatMap StreamPair.emitted = eventsOn id s.outgoing
  incoming : ∀ id,
    ((s.streamsOf id).flatMap StreamPair.inputs).Sublist (eventsOn id s.transport.received)

section Accounts

variable {s s' : YamuxSession} {t : YamuxTransport} {id : StreamID} {p q : StreamPair}

theorem PairsOk.handleId (h : PairsOk s) (id : StreamID) (p : StreamPair)
    (hp : s.streams.lookup id = some p) : p.handle.id = id := by
  obtain ⟨opened, hreach⟩ := (h.registered id p hp).reach
  exact hreach.ids.2

namespace Accounts

/-- The streams neither yield nor take in anything. -/
theorem keep (h : Accounts s)
    (hemitted : ∀ id, (s'.streamsOf id).map StreamPair.emitted =
      (s.streamsOf id).map StreamPair.emitted)
    (hinputs : ∀ id, (s'.streamsOf id).map StreamPair.inputs =
      (s.streamsOf id).map StreamPair.inputs)
    (houtgoing : ∀ id, eventsOn id s'.outgoing = eventsOn id s.outgoing)
    (hincoming : s.transport.received <+: s'.transport.received) : Accounts s' := by
  refine ⟨fun id => ?_, fun id => ?_⟩
  · rw [houtgoing, ← h.outgoing, List.flatMap_def, List.flatMap_def, hemitted]
  · obtain ⟨more, hmore⟩ := hincoming
    rw [← hmore, eventsOn_append, List.flatMap_def, hinputs, ← List.flatMap_def]
    exact (h.incoming id).trans (List.sublist_append_left _ _)

theorem congr (h : Accounts s) (hstreams : s'.streams = s.streams)
    (hdropped : s'.dropped = s.dropped)
    (houtgoing : ∀ id, eventsOn id s'.outgoing = eventsOn id s.outgoing)
    (hincoming : s.transport.received <+: s'.transport.received) : Accounts s' := by
  have hsame := YamuxSession.streamsOf_congr hstreams hdropped
  exact h.keep (fun id => by rw [hsame]) (fun id => by rw [hsame]) houtgoing hincoming

/-- An event comes in and is taken in, or not. -/
theorem taken (h : Accounts s) {event : FrameStreamEvent} {inputs : List FrameStreamEvent}
    (hinputs : inputs = (s.streamsOf id).flatMap StreamPair.inputs ++ [event] ∨
      inputs = (s.streamsOf id).flatMap StreamPair.inputs) :
    inputs.Sublist (eventsOn id s.transport.received ++ [event]) := by
  rcases hinputs with rfl | rfl
  · exact (h.incoming id).append_right [event]
  · exact (h.incoming id).trans (List.sublist_append_left _ _)

/-- A frame comes for a stream in use. -/
theorem input (h : Accounts s) (hp : s.streams.lookup id = some p) {event : FrameStreamEvent}
    (hstreams : s'.streams = (s.setStream id q).streams) (hdropped : s'.dropped = s.dropped)
    (hemitted : q.emitted = p.emitted)
    (hinputs : q.inputs = p.inputs ++ [event] ∨ q.inputs = p.inputs)
    (hreceived : s'.transport.received = s.transport.received ++ [.stream id event])
    (houtgoing : s'.outgoing = s.outgoing) : Accounts s' := by
  have hsame : ∀ id', s'.streamsOf id' = (s.setStream id q).streamsOf id' :=
    YamuxSession.streamsOf_congr (s := s.setStream id q) hstreams hdropped
  refine ⟨fun id' => ?_, fun id' => ?_⟩
  · rw [hsame, houtgoing, ← h.outgoing, List.flatMap_def, List.flatMap_def,
      YamuxSession.map_setStream StreamPair.emitted hp hemitted]
  · rw [hsame, hreceived]
    by_cases hid : id' = id
    · subst hid
      rw [eventsOn_concat_self, YamuxSession.streamsOf_setStream_self]
      apply h.taken
      rw [YamuxSession.streamsOf_of_lookup hp, List.flatMap_append, List.flatMap_append,
        List.flatMap_singleton, List.flatMap_singleton]
      rcases hinputs with hnew | hold
      · exact Or.inl (by rw [hnew, List.append_assoc])
      · exact Or.inr (by rw [hold])
    · rw [eventsOn_concat_ne id' _ (Ne.symm hid), YamuxSession.streamsOf_setStream_ne hid]
      exact h.incoming id'

/-- A new stream is registered, and may be given the frame it was opened with. -/
theorem register (h : Accounts s) (hpairs : PairsOk s) (id : StreamID)
    (hstreams : s'.streams = (s.insertStream id q).streams)
    (hdropped : s'.dropped = (s.insertStream id q).dropped) (hemitted : q.emitted = [])
    (hinputs : ∃ events, s'.transport.received =
        s.transport.received ++ events.map (Frame.stream id) ∧ (q.inputs = events ∨ q.inputs = []))
    (houtgoing : s'.outgoing = s.outgoing) : Accounts s' := by
  have hsame : ∀ id', s'.streamsOf id' = (s.insertStream id q).streamsOf id' :=
    YamuxSession.streamsOf_congr (s := s.insertStream id q) hstreams hdropped
  obtain ⟨events, hreceived, hq⟩ := hinputs
  refine ⟨fun id' => ?_, fun id' => ?_⟩
  · have hfirst : (if id' = id then [q.emitted] else []).flatten = [] := by
      rw [hemitted]
      split <;> rfl
    rw [hsame, houtgoing, ← h.outgoing, List.flatMap_def, List.flatMap_def,
      YamuxSession.map_insertStream StreamPair.emitted (hpairs.handleId id) (fun _ => rfl),
      List.flatten_append, hfirst, List.append_nil]
  · rw [hsame, hreceived, eventsOn_append, List.flatMap_def,
      YamuxSession.map_insertStream StreamPair.inputs (hpairs.handleId id) (fun _ => rfl),
      List.flatten_append, ← List.flatMap_def]
    refine (h.incoming id').append ?_
    by_cases hid : id' = id
    · subst hid
      rw [if_pos rfl, List.flatten_singleton, eventsOn_map]
      rcases hq with hq | hq
      · rw [hq]
      · rw [hq]
        exact List.nil_sublist _
    · rw [if_neg hid]
      exact List.nil_sublist _

end Accounts

theorem StreamPair.onInput_inputs (p : StreamPair) (event : FrameStreamEvent) :
    (p.onInput event).2.inputs = p.inputs ++ [event] ∨ (p.onInput event).2.inputs = p.inputs := by
  simp only [onInput]
  split
  · exact Or.inl rfl
  · exact Or.inr rfl

/-- The session deals with a frame; `t` is the transport that has yielded it. -/
theorem Dispatch.accounts {frame : Frame} (h : Dispatch { s with transport := t } frame s')
    (hsent : t.sent = s.transport.sent)
    (hreceived : t.received = s.transport.received ++ [frame]) (hpairs : PairsOk s)
    (hs : Accounts s) : Accounts s' := by
  have hquiet : t.sent ++ s.outQueue = s.outgoing := by rw [hsent]; rfl
  have hgrows : s.transport.received <+: t.received := hreceived ▸ List.prefix_append _ _
  cases h with
  | ping code =>
      refine hs.congr rfl rfl (fun id => ?_) hgrows
      show eventsOn id (t.sent ++ (s.outQueue ++ [_])) = _
      rw [← List.append_assoc, eventsOn_concat_session, hquiet]
  | quiet event | unknown =>
      refine hs.congr rfl rfl (fun id => ?_) hgrows
      show eventsOn id (t.sent ++ s.outQueue) = _
      rw [hquiet]
  | @input id p event hp =>
      refine hs.input (q := (p.onInput event).2) hp ?_ ?_ rfl (p.onInput_inputs event) ?_ ?_
      · rw [YamuxSession.logError_streams]
        rfl
      · cases (p.onInput event).1 <;> rfl
      · rw [YamuxSession.logError_transport]
        exact hreceived
      · rw [YamuxSession.logError_outgoing]
        exact hquiet
  | @accept id event flags hnone hflags hsyn =>
      have hnew := (StreamPair.acceptStream id).onInput_inputs event
      refine hs.register hpairs id (q := ((StreamPair.acceptStream id).onInput event).2) ?_ ?_ rfl
        ⟨[event], ?_, hnew⟩ ?_
      · rw [YamuxSession.logError_streams]
        rfl
      · cases ((StreamPair.acceptStream id).onInput event).1 <;> rfl
      · rw [YamuxSession.logError_transport]
        exact hreceived
      · rw [YamuxSession.logError_outgoing]
        exact hquiet

theorem PollStep.accounts (h : PollStep s s') (hpairs : PairsOk s) (hs : Accounts s) :
    Accounts s' := by
  cases h with
  | @flush t result hflush =>
      refine hs.congr rfl rfl (fun id => ?_) ?_
      · show eventsOn id (t.sent ++ s.outQueue) = _
        rw [hflush.sent]
        rfl
      · show _ <+: t.received
        rw [hflush.received]
  | @send t out rest hq hsend =>
      obtain ⟨b, rfl⟩ := YamuxTransport.startSend_eq hsend
      refine hs.congr rfl rfl (fun id => ?_) List.prefix_rfl
      show eventsOn id (s.transport.sent ++ [out] ++ rest) = _
      rw [YamuxSession.outgoing, hq, List.append_assoc, List.singleton_append]
  | closeIo => exact hs.congr rfl rfl (fun _ => rfl) List.prefix_rfl
  | @receive t event pushed hreceive =>
      have hreceived := hreceive.received
      by_cases hframe : ∃ frame, event = .ready (some (.ok frame))
      · obtain ⟨frame, rfl⟩ := hframe
        have hdispatch := YamuxSession.onFrame_dispatch { s with transport := t } frame
        exact hdispatch.accounts hreceive.sent hreceived hpairs hs
      · have hnot : ∀ frame, event ≠ .ready (some (.ok frame)) :=
          fun frame heq => hframe ⟨frame, heq⟩
        rw [YamuxSession.deliver_of_not_frame hnot]
        refine hs.congr rfl rfl (fun id => ?_) ?_
        · show eventsOn id (t.sent ++ s.outQueue) = _
          rw [hreceive.sent]
          rfl
        · show _ <+: t.received
          rw [hreceived]
          exact List.prefix_append _ _
  | @drain id p hp =>
      have hdrained := (hpairs.registered id p hp).drain
      have houtgoing : (s.drainStream id p).1.outgoing = s.outgoing ++
          (YamuxSession.drainHead (YamuxSession.drainWork p) p).1.map (Frame.stream id) :=
        (List.append_assoc _ _ _).symm
      have hsame : ∀ id', (s.drainStream id p).1.streamsOf id' =
          (s.setStream id (YamuxSession.drainHead (YamuxSession.drainWork p) p).2.2).streamsOf
            id' := YamuxSession.streamsOf_congr rfl rfl
      refine ⟨fun id' => ?_, fun id' => ?_⟩
      · rw [hsame, houtgoing, eventsOn_append, ← hs.outgoing]
        by_cases hid : id' = id
        · subst hid
          rw [YamuxSession.streamsOf_setStream_self, YamuxSession.streamsOf_of_lookup hp,
            List.flatMap_append, List.flatMap_append, List.flatMap_singleton,
            List.flatMap_singleton, eventsOn_map, hdrained.emitted, List.append_assoc]
        · rw [YamuxSession.streamsOf_setStream_ne hid, eventsOn_map_ne id' (Ne.symm hid),
            List.append_nil]
      · rw [hsame, List.flatMap_def,
          YamuxSession.map_setStream StreamPair.inputs hp hdrained.inputs, ← List.flatMap_def]
        exact hs.incoming id'
  | remove id =>
      exact hs.keep (YamuxSession.map_removeStream _ (hpairs.handleId id) fun _ => rfl)
        (YamuxSession.map_removeStream _ (hpairs.handleId id) fun _ => rfl) (fun _ => rfl)
        List.prefix_rfl

theorem SessionStep.accounts {guard : Guard} (h : SessionStep guard s s') (hpairs : PairsOk s)
    (hs : Accounts s) : Accounts s' := by
  cases h with
  | openStream =>
      have hs' : Accounts { s with
          nextStreamId := if s.nextStreamId + 2 = 0 then 2 else s.nextStreamId + 2 } :=
        hs.congr rfl rfl (fun _ => rfl) List.prefix_rfl
      exact hs'.register (hpairs.congr rfl rfl) ⟨s.nextStreamId⟩
        (q := StreamPair.openStream ⟨s.nextStreamId⟩) rfl rfl rfl
        ⟨[], (List.append_nil _).symm, Or.inl rfl⟩ rfl
  | close code =>
      refine hs.congr rfl rfl (fun id => ?_) List.prefix_rfl
      show eventsOn id (s.transport.sent ++ (s.outQueue ++ [_])) = _
      rw [← List.append_assoc, eventsOn_concat_session]
      rfl
  | handle ref op =>
      have hframe := YamuxSession.handleOp_frame (s := s) ref op
      refine hs.keep
        (YamuxSession.map_handleOp _ ref op fun p => (p.handleOp_frame op).2.1)
        (YamuxSession.map_handleOp _ ref op fun p => (p.handleOp_frame op).2.2) (fun id => ?_) ?_
      · rw [hframe]
        rfl
      · rw [hframe]
  | behave => exact hs.congr rfl rfl (fun _ => rfl) List.prefix_rfl
  | poll hpoll => exact hpoll.accounts hpairs hs

theorem SessionReachable.accounts {isServer : Bool} {maxWriteBuffer : Nat} {guard : Guard}
    (h : SessionReachable isServer maxWriteBuffer guard s) : Accounts s := by
  refine h.invariant_with (fun _ hs => SessionReachable.pairsOk hs) ?_ ?_
  · rintro s rfl
    exact ⟨fun _ => rfl, fun _ => List.nil_sublist _⟩
  · intro s s' hpairs hs hstep
    exact hstep.accounts hpairs hs

/-- In every run, whatever the peer sends: the frames sent or queued on an id
are what the streams of that id have yielded, one stream after the other, and
what these have taken in, one after the other, is a part, in order, of the
frames that have come in on the id. -/
theorem frames_of_streams {isServer : Bool} {maxWriteBuffer : Nat}
    (h : (sessionMachine isServer maxWriteBuffer anything).Reachable s) (id : StreamID) :
    eventsOn id s.outgoing = (s.streamsOf id).flatMap StreamPair.emitted ∧
      ((s.streamsOf id).flatMap StreamPair.inputs).Sublist
        (eventsOn id s.transport.received) := by
  have hs := (sessionMachine_reachable h).accounts
  exact ⟨(hs.outgoing id).symm, hs.incoming id⟩

end Accounts

/-- The peer opens a stream, resets it, and opens another one under its id. -/
def reopened : List Move :=
  [.poll [] [.ready (.ok [0, 1, 0, 1, 0, 0, 0, 1, 0, 0, 0, 0])] [] [],
    .poll [] [.ready (.ok [0, 1, 0, 8, 0, 0, 0, 1, 0, 0, 0, 0])] [] [⟨1⟩],
    .poll [] [.ready (.ok [0, 1, 0, 1, 0, 0, 0, 1, 0, 0, 0, 0])] [] [],
    .poll [] [] [] [⟨1⟩]]

theorem frames_of_streams_reopened :
    ∃ s, (YamuxSession.new Io.new true 0).run reopened = some s ∧ (s.streamsOf ⟨1⟩).length = 2 ∧
      (s.streamsOf ⟨1⟩).flatMap StreamPair.emitted =
        [firstEvent false, finEvent, firstEvent false] := by
  obtain ⟨s, hs, hout⟩ := Option.map_eq_some_iff.mp (by decide +kernel :
    ((YamuxSession.new Io.new true 0).run reopened).map (fun s =>
      ((s.streamsOf ⟨1⟩).length, eventsOn ⟨1⟩ s.outgoing)) =
      some (2, [firstEvent false, finEvent, firstEvent false]))
  obtain ⟨htwo, hevents⟩ := Prod.mk.inj hout
  have hreach := reachable_of_run (.init rfl) hs
  exact ⟨s, hs, htwo, (frames_of_streams hreach ⟨1⟩).1.symm.trans hevents⟩

/-! ### Handles -/

theorem PollStep.steps_pairsOk {s s' : YamuxSession} (h : ReflTransGen PollStep s s')
    (hpairs : PairsOk s) : PairsOk s' := by
  induction h with
  | refl => exact hpairs
  | tail _ hstep ih => exact hstep.pairsOk ih

/-- The stream whose handle an answer of `poll_next` brings. -/
def yielded : Poll (Option YamuxStream) → List StreamID
  | .ready (some handle) => [handle.id]
  | _ => []

/-- The stream whose handle a move gives to the application. -/
def Move.handedOut (s : YamuxSession) : Move → List StreamID
  | .openStream => [⟨s.nextStreamId⟩]
  | .poll writes reads closes order =>
      (((s.behave writes reads closes).pollNext order).map fun r => yielded r.1).getD []
  | _ => []

/-- The streams whose handles a run gives to the application. -/
def YamuxSession.handedOut (s : YamuxSession) : List Move → List StreamID
  | [] => []
  | m :: moves => m.handedOut s ++ ((s.move m).map (·.handedOut moves)).getD []

section Handles

variable {s s' : YamuxSession} {answer : Poll (Option YamuxStream)} {order : List StreamID}

namespace YamuxSession

/-- How many streams of an id there have been does not depend on what becomes of them. -/
theorem length_streamsOf {id : StreamID}
    (h : (s'.streamsOf id).map (fun _ => ()) = (s.streamsOf id).map (fun _ => ())) :
    (s'.streamsOf id).length = (s.streamsOf id).length := by
  have hlength := congrArg List.length h
  rwa [List.length_map, List.length_map] at hlength

/-- A frame makes a stream exactly if its handle is the answer. -/
theorem onFrame_handles (s : YamuxSession) (frame : Frame) (id : StreamID) :
    ((s.onFrame frame).2.streamsOf id).length =
      (s.streamsOf id).length + (((s.onFrame frame).1.map yielded).getD []).count id := by
  match frame with
  | .session (.goAway code) => rfl
  | .session (.ping flags code) =>
      simp only [onFrame]
      split <;> rfl
  | .stream id' event =>
      cases hp : s.streams.lookup id' with
      | some p =>
          simp only [onFrame, hp, streamsOf_logError]
          exact length_streamsOf
            (map_setStream (fun _ => ()) (q := (p.onInput event).2) hp rfl id)
      | none =>
          cases hf : event.flags with
          | none =>
              simp only [onFrame, hp, hf]
              rfl
          | some flags =>
              cases hsyn : flags.syn with
              | false =>
                  simp only [onFrame, hp, hf, hsyn]
                  rfl
              | true =>
                  simp only [onFrame, hp, hf, hsyn, if_true, streamsOf_logError]
                  have hnew := congrArg List.length (map_insertStream (fun _ => ()) (s := s)
                    (fun p h => by rw [hp] at h; cases h) (fun _ => rfl)
                    ((StreamPair.acceptStream id').onInput event).2 id)
                  rw [List.length_append, List.length_map, List.length_map] at hnew
                  rw [hnew]
                  show _ = _ + List.count id [id']
                  rw [List.count_singleton]
                  by_cases hid : id = id'
                  · simp [hid]
                  · simp [hid, Ne.symm hid]

theorem inboundLoop_handles {fuel : Nat} {answer : Option (Poll (Option YamuxStream))}
    (h : s.inboundLoop fuel = some (answer, s')) (id : StreamID) :
    (s'.streamsOf id).length =
      (s.streamsOf id).length + ((answer.map yielded).getD []).count id := by
  obtain ⟨s₁, hturns, hend⟩ := inboundLoop_turns h
  have hsame : ∀ {a}, ReflTransGen InboundTurn s a →
      (a.streamsOf id).length = (s.streamsOf id).length := by
    intro a ha
    induction ha with
    | refl => rfl
    | @tail b _ _ hlast ih =>
        cases hlast with
        | @frame t f _ _ hframe =>
            have hnew := onFrame_handles { b with transport := t } f id
            rw [hframe] at hnew
            exact hnew.trans ih
  rw [← hsame hturns]
  cases hend with
  | dry | closed | failed => rfl
  | @frame t f answer _ _ hframe =>
      have hnew := onFrame_handles { s₁ with transport := t } f id
      rwa [hframe] at hnew

theorem drainHeads_handles (order : List StreamID) (id : StreamID) :
    ((s.drainHeads order).1.streamsOf id).length = (s.streamsOf id).length := by
  induction order generalizing s with
  | nil => rfl
  | cons id' order ih =>
      cases hp : s.streams.lookup id' with
      | none =>
          simp only [drainHeads, hp]
          exact ih
      | some p =>
          simp only [drainHeads, hp]
          rw [ih]
          exact length_streamsOf
            (map_setStream (fun _ => ()) (q := (drainHead (drainWork p) p).2.2) hp rfl id)

theorem removeAll_handles (ids : List StreamID) (hpairs : PairsOk s) (id : StreamID) :
    ((ids.foldl removeStream s).streamsOf id).length = (s.streamsOf id).length := by
  induction ids generalizing s with
  | nil => rfl
  | cons id' ids ih =>
      rw [List.foldl_cons, ih ((PollStep.remove id').pairsOk hpairs)]
      exact length_streamsOf (map_removeStream _ (hpairs.handleId id') (fun _ => rfl) id)

theorem pollClosing_handles (h : s.pollClosing = some (answer, s')) : yielded answer = [] := by
  obtain ⟨⟨result, t⟩, -, hx⟩ := Option.bind_eq_some_iff.mp h
  cases hx
  split <;> rfl

theorem flushSent_handles {sent : Bool} (h : s.flushSent sent = some (answer, s')) :
    yielded answer = [] := by
  rw [flushSent] at h
  split at h
  · obtain ⟨⟨result, t⟩, -, hx⟩ := Option.bind_eq_some_iff.mp h
    rcases result with - | e | u <;> cases hx <;> rfl
  · cases h
    rfl

theorem pollNext_handles (hw : s.Wf) (hpairs : PairsOk s)
    (h : s.pollNext order = some (answer, s')) (id : StreamID) :
    (s'.streamsOf id).length = (s.streamsOf id).length + (yielded answer).count id := by
  cases s.course hw order with
  | @closing t _ rest hsend _ hpoll =>
      have hclosing := hpoll.symm.trans h
      obtain ⟨hstreams, hdropped⟩ := pollClosing_streams hclosing
      rw [pollClosing_handles hclosing, streamsOf_congr hstreams hdropped]
      rfl
  | answered _ _ hread hpoll =>
      cases hpoll.symm.trans h
      exact inboundLoop_handles hread.loop id
  | @drained t t' _ rest _ rest' s₂ hsend _ hread _ hpoll =>
      have hflush := hpoll.symm.trans h
      obtain ⟨hstreams, hdropped⟩ := flushSent_streams hflush
      have hpairs₂ : PairsOk (s₂.drainHeads order).1 := by
        have hsteps := (hsend.steps.trans hread.steps).trans (s₂.drainHeads_steps order)
        exact PollStep.steps_pairsOk hsteps hpairs
      have hsame := streamsOf_congr (s := s₂.drainAll order) hstreams hdropped id
      rw [flushSent_handles hflush, hsame, drainAll, removeAll_handles _ hpairs₂,
        drainHeads_handles]
      exact inboundLoop_handles hread.loop id

/-- A move makes a stream exactly if it gives its handle to the application. -/
theorem move_handles {m : Move} (hw : s.Wf) (hpairs : PairsOk s) (hmove : s.move m = some s')
    (id : StreamID) :
    (s'.streamsOf id).length = (s.streamsOf id).length + (m.handedOut s).count id := by
  cases m with
  | openStream =>
      obtain rfl := Option.some.inj hmove
      have hnew := congrArg List.length (map_insertStream (fun _ => ()) (s := s)
        (hpairs.handleId ⟨s.nextStreamId⟩) (fun _ => rfl)
        (StreamPair.openStream ⟨s.nextStreamId⟩) id)
      rw [List.length_append, List.length_map, List.length_map] at hnew
      refine Eq.trans hnew (congrArg _ ?_)
      rw [Move.handedOut, List.count_singleton]
      by_cases hid : id = ⟨s.nextStreamId⟩
      · simp [hid]
      · simp [hid, Ne.symm hid]
  | close code =>
      obtain rfl := Option.some.inj hmove
      rfl
  | handle ref op =>
      obtain rfl := Option.some.inj hmove
      exact length_streamsOf (map_handleOp (fun _ => ()) ref op (fun _ => rfl) id)
  | poll writes reads closes order =>
      obtain ⟨⟨answer, s₁⟩, hpoll, rfl⟩ := Option.map_eq_some_iff.mp hmove
      have hw' : (s.behave writes reads closes).Wf := ⟨hw.writer, hw.reader⟩
      rw [Move.handedOut, hpoll]
      exact pollNext_handles hw' (hpairs.congr rfl rfl) hpoll id

theorem run_handles {moves : List Move} {isServer : Bool} {maxWriteBuffer : Nat}
    (h : SessionReachable isServer maxWriteBuffer anything s) (hrun : s.run moves = some s')
    (id : StreamID) :
    (s'.streamsOf id).length = (s.streamsOf id).length + (s.handedOut moves).count id := by
  induction moves generalizing s with
  | nil =>
      obtain rfl := Option.some.inj hrun
      rfl
  | cons m moves ih =>
      obtain ⟨-, s₁, hmove, hrest⟩ := run_cons.mp hrun
      have hreach := h.steps (move_steps h.wf trivial hmove)
      rw [ih hreach hrest, move_handles h.wf h.pairsOk hmove id, handedOut, hmove]
      simp only [Option.map_some, Option.getD_some, List.count_append]
      omega

end YamuxSession

/-- In every run, whatever the peer sends: the handles given to the application
so far, by `open_stream` and by `poll_next`, are one for each stream that the
session has, or has had, under the id. -/
theorem handles_handed_out_once {isServer : Bool} {maxWriteBuffer : Nat} {moves : List Move}
    (hrun : (YamuxSession.new Io.new isServer maxWriteBuffer).run moves = some s)
    (id : StreamID) :
    ((YamuxSession.new Io.new isServer maxWriteBuffer).handedOut moves).count id =
      (s.streamsOf id).length := by
  have hreach : SessionReachable isServer maxWriteBuffer anything
      (YamuxSession.new Io.new isServer maxWriteBuffer) := .init rfl
  rw [YamuxSession.run_handles hreach hrun id]
  exact (Nat.zero_add _).symm

theorem handles_handed_out_once_reopened :
    ∃ s, (YamuxSession.new Io.new true 0).run reopened = some s ∧
      ((YamuxSession.new Io.new true 0).handedOut reopened).count ⟨1⟩ =
        (s.streamsOf ⟨1⟩).length := by
  obtain ⟨s, hs⟩ := Option.isSome_iff_exists.mp (by decide +kernel :
    ((YamuxSession.new Io.new true 0).run reopened).isSome = true)
  exact ⟨s, hs, handles_handed_out_once hs ⟨1⟩⟩

end Handles

end YamuxLowMem
