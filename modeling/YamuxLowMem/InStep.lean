/-
YamuxLowMem/InStep.lean

The frame reader and the stream heads stay in step.

The reader keeps the payload it is in the middle of, and so does the head of
that stream.  As long as no inbound frame is addressed to an id before
`open_stream` allocates it, the two agree in every run, whatever the inbound
bytes are; so `on_input` never fails, and no error is ever ignored.
-/
import YamuxLowMem.SessionRun

namespace YamuxLowMem

open Async

/-- What the head of stream `id` should be waiting for. -/
def payloadDue (pending : Option PendingPayload) (id : StreamID) : Option Nat :=
  match pending with
  | some p => if p.streamId = id then some p.remain else none
  | none => none

/-- Every registered head waits for what the reader is in the middle of, and
no error has been ignored. -/
structure HeadsAt (pending : Option PendingPayload) (s : YamuxSession) : Prop where
  heads : Pairs (fun id p => p.head.recvState = payloadDue pending id) (fun _ => True) s
  errors : s.errors = []

namespace HeadsAt

variable {pending pending' : Option PendingPayload} {s s' : YamuxSession} {id : StreamID}

theorem congr (h : HeadsAt pending s) (hstreams : s'.streams = s.streams)
    (herrors : s'.errors = s.errors) : HeadsAt pending s' := by
  refine ⟨⟨?_, fun _ _ => trivial⟩, herrors.trans h.errors⟩
  rw [hstreams]
  exact h.heads.registered

/-- The other heads are waiting for the same as before. -/
theorem rest (h : HeadsAt pending s) (hsame : ∀ id', id' ≠ id → payloadDue pending' id' =
    payloadDue pending id') (hnone : s.streams.lookup id = none) : HeadsAt pending' s := by
  refine ⟨h.heads.mono ?_ fun _ _ h => h, h.errors⟩
  intro id' p hp hr
  have hid : id' ≠ id := by
    rintro rfl
    rw [hnone] at hp
    cases hp
  rw [hsame id' hid]
  exact hr

/-- One head is replaced by one that waits for the right thing. -/
theorem set (h : HeadsAt pending s) {q : StreamPair}
    (hsame : ∀ id', id' ≠ id → payloadDue pending' id' = payloadDue pending id')
    (hq : q.head.recvState = payloadDue pending' id) : HeadsAt pending' (s.setStream id q) := by
  refine ⟨⟨?_, fun _ _ => trivial⟩, h.errors⟩
  intro id' p hp
  by_cases hid : id' = id
  · subst hid
    rw [YamuxSession.setStream, Finmap.lookup_insert] at hp
    obtain rfl := Option.some.inj hp
    exact hq
  · rw [YamuxSession.setStream, Finmap.lookup_insert_of_ne _ hid] at hp
    rw [hsame id' hid]
    exact h.heads.registered id' p hp

theorem insert (h : HeadsAt pending s) {q : StreamPair}
    (hsame : ∀ id', id' ≠ id → payloadDue pending' id' = payloadDue pending id')
    (hq : q.head.recvState = payloadDue pending' id) : HeadsAt pending' (s.insertStream id q) :=
  ⟨⟨(h.set hsame hq).heads.registered, fun _ _ => trivial⟩, h.errors⟩

end HeadsAt

/-! ### A frame arrives -/

/-- A head that waits for what the reader did before the frame takes it in,
and then waits for what the reader does. -/
theorem Arrival.onInput {pending pending' : Option PendingPayload} {id : StreamID}
    {event : FrameStreamEvent} {p : StreamPair}
    (h : Arrival pending (.ready (some (.ok (.stream id event)))) pending')
    (hp : p.head.recvState = payloadDue pending id) :
    (p.onInput event).1 = .ok () ∧
      (p.onInput event).2.head.recvState = payloadDue pending' id := by
  cases h with
  | frame htokens =>
      cases event with
      | dataChunk c =>
          -- the tokens of a chunk are payload bytes
          cases c <;> simp [Frame.tokens] at htokens
      | data flags size =>
          rw [StreamPair.onInput_header hp]
          exact ⟨rfl, by simp [payloadDue, Frame.announced]⟩
      | windowUpdate flags delta =>
          rw [StreamPair.onInput_window]
          exact ⟨rfl, hp⟩
  | @chunk pd c hle _ =>
      have hdue : p.head.recvState = some pd.remain := by simpa [payloadDue] using hp
      rw [StreamPair.onInput_chunk hdue hle]
      refine ⟨rfl, ?_⟩
      simp only [PendingPayload.advance]
      split <;> simp [payloadDue]
  | nothing hnot => exact absurd rfl (hnot _)

/-- For the other streams nothing changes. -/
theorem Arrival.others {pending pending' : Option PendingPayload} {id id' : StreamID}
    {event : FrameStreamEvent}
    (h : Arrival pending (.ready (some (.ok (.stream id event)))) pending') (hid : id' ≠ id) :
    payloadDue pending' id' = payloadDue pending id' := by
  cases h with
  | frame =>
      cases event <;> simp [payloadDue, Frame.announced, Ne.symm hid]
  | chunk =>
      simp only [PendingPayload.advance]
      split <;> simp [payloadDue, Ne.symm hid]
  | nothing hnot => exact absurd rfl (hnot _)

theorem Arrival.session {pending pending' : Option PendingPayload} {event : FrameSessionEvent}
    (h : Arrival pending (.ready (some (.ok (.session event)))) pending') :
    pending = none ∧ pending' = none := by
  cases h with
  | frame => exact ⟨rfl, rfl⟩
  | nothing hnot => exact absurd rfl (hnot _)

theorem Arrival.pending_eq {pending pending' : Option PendingPayload}
    {event : Poll (Option (Except YamuxTransportError Frame))} (h : Arrival pending event pending')
    (hnot : ∀ f, event = .ready (some (.ok f)) → False) : pending' = pending := by
  cases h with
  | frame | chunk => exact absurd rfl (hnot _)
  | nothing => rfl

theorem Dispatch.headsAt {s s' : YamuxSession} {frame : Frame}
    {pending pending' : Option PendingPayload} (h : Dispatch s frame s')
    (harrival : Arrival pending (.ready (some (.ok frame))) pending') (hs : HeadsAt pending s) :
    HeadsAt pending' s' := by
  cases h with
  | ping | quiet =>
      obtain ⟨rfl, rfl⟩ := harrival.session
      exact hs.congr rfl rfl
  | input event hp =>
      obtain ⟨hok, hrecv⟩ := harrival.onInput (hs.heads.registered _ _ hp)
      rw [hok]
      exact hs.set (fun _ => harrival.others) hrecv
  | @accept id event flags hnone hflags =>
      -- only a frame with flags is accepted, so the reader was between payloads
      have hfresh : (StreamPair.acceptStream id).head.recvState = payloadDue pending id := by
        cases harrival with
        | frame => rfl
        | chunk => cases hflags
        | nothing hnot => exact absurd rfl (hnot _)
      obtain ⟨hok, hrecv⟩ := harrival.onInput hfresh
      rw [hok]
      exact hs.insert (fun _ => harrival.others) hrecv
  | unknown hnone => exact hs.rest (fun _ => harrival.others) hnone

/-! ### Runs -/

/-- No frame has been addressed to an id before it is allocated. -/
def notAddressed : Guard := fun s m =>
  m = .openStream → ∀ event, .stream ⟨s.nextStreamId⟩ event ∉ s.transport.received

structure InStep (s : YamuxSession) : Prop where
  headsAt : HeadsAt s.transport.reader.pending s
  /-- the reader is only in the middle of a payload that was announced -/
  announced : ∀ p, s.transport.reader.pending = some p →
    ∃ event, .stream p.streamId event ∈ s.transport.received

theorem Arrival.announced {pending pending' : Option PendingPayload}
    {event : Poll (Option (Except YamuxTransportError Frame))} {p : PendingPayload}
    (h : Arrival pending event pending') (hp : pending' = some p) :
    (∃ e, .stream p.streamId e ∈ eventFrames event) ∨
      ∃ q, pending = some q ∧ q.streamId = p.streamId := by
  cases h with
  | @frame f _ =>
      left
      match f with
      | .session e => cases hp
      | .stream id (.data flags size) =>
          obtain rfl := Option.some.inj hp
          exact ⟨.data flags size, List.mem_singleton.mpr rfl⟩
      | .stream id (.dataChunk c) => cases hp
      | .stream id (.windowUpdate flags delta) => cases hp
  | @chunk q c _ _ =>
      right
      refine ⟨q, rfl, ?_⟩
      simp only [PendingPayload.advance] at hp
      split at hp
      · cases hp
      · obtain rfl := Option.some.inj hp
        rfl
  | nothing => exact Or.inr ⟨p, hp, rfl⟩

theorem PollStep.inStep {s s' : YamuxSession} (h : PollStep s s') (hp : PairsOk s)
    (hs : InStep s) : InStep s' := by
  cases h with
  | @flush t result hflush =>
      refine ⟨?_, ?_⟩
      · show HeadsAt t.reader.pending _
        rw [hflush.reader]
        exact hs.headsAt.congr rfl rfl
      · show ∀ p, t.reader.pending = some p → ∃ event, .stream p.streamId event ∈ t.received
        rw [hflush.reader, hflush.received]
        exact hs.announced
  | @send t out rest hq hsend =>
      obtain ⟨b, rfl⟩ := YamuxTransport.startSend_eq hsend
      exact ⟨hs.headsAt.congr rfl rfl, hs.announced⟩
  | closeIo => exact ⟨hs.headsAt.congr rfl rfl, hs.announced⟩
  | @receive t event pushed hreceive =>
      have hreceived := hreceive.received
      -- the reader is in the middle of a payload only behind its header
      have hannounced : ∀ p, t.reader.pending = some p →
          ∃ e, .stream p.streamId e ∈ t.received := by
        intro p hp
        rw [hreceived]
        rcases hreceive.arrival.announced hp with ⟨e, he⟩ | ⟨q, hq, hid⟩
        · exact ⟨e, List.mem_append_right _ he⟩
        · obtain ⟨e, he⟩ := hs.announced q hq
          rw [← hid]
          exact ⟨e, List.mem_append_left _ he⟩
      have htransport := YamuxSession.deliver_transport (s := { s with transport := t }) event
      have hat : HeadsAt s.transport.reader.pending { s with transport := t } :=
        hs.headsAt.congr rfl rfl
      refine ⟨?_, ?_⟩
      · rw [htransport]
        have harrival := hreceive.arrival
        unfold YamuxSession.deliver
        split
        · exact (YamuxSession.onFrame_dispatch _ _).headsAt harrival hat
        · rename_i hnot
          rw [harrival.pending_eq hnot]
          exact hat
      · rw [htransport]
        exact hannounced
  | @drain id p hlookup =>
      have hdrained := (hp.registered id p hlookup).drain
      have hrecv := hdrained.recvState.trans (hs.headsAt.heads.registered id p hlookup)
      exact ⟨(hs.headsAt.set (fun _ _ => rfl) hrecv).congr rfl rfl, hs.announced⟩
  | remove id =>
      refine ⟨⟨?_, hs.headsAt.errors⟩, hs.announced⟩
      exact hs.headsAt.heads.removeStream (fun _ _ _ => trivial) id

theorem SessionStep.inStep {s s' : YamuxSession} (h : SessionStep notAddressed s s')
    (hp : PairsOk s) (hs : InStep s) : InStep s' := by
  cases h with
  | openStream hguard =>
      refine ⟨?_, hs.announced⟩
      -- the new head waits for nothing, and nothing is due on its id
      have hdue : none = payloadDue s.transport.reader.pending ⟨s.nextStreamId⟩ := by
        cases hpending : s.transport.reader.pending with
        | none => rfl
        | some p =>
            obtain ⟨event, hmem⟩ := hs.announced p hpending
            have hid : p.streamId ≠ ⟨s.nextStreamId⟩ := by
              intro hid
              rw [hid] at hmem
              exact hguard rfl event hmem
            simp [payloadDue, hid]
      have hat : HeadsAt s.transport.reader.pending { s with
          nextStreamId := if s.nextStreamId + 2 = 0 then 2 else s.nextStreamId + 2 } :=
        hs.headsAt.congr rfl rfl
      exact hat.insert (q := StreamPair.openStream ⟨s.nextStreamId⟩) (fun _ _ => rfl) hdue
  | close | behave => exact ⟨hs.headsAt.congr rfl rfl, hs.announced⟩
  | handle ref op =>
      have htransport := handleOp_transport (s := s) ref op
      have hheads := hs.headsAt.heads.handleOp ref op
        (fun id p hr => by rw [(p.handleOp_frame op).1]; exact hr) (fun _ h => h)
      refine ⟨⟨?_, ?_⟩, ?_⟩
      · rw [htransport]
        exact hheads
      · rw [YamuxSession.handleOp_frame]
        exact hs.headsAt.errors
      · rw [htransport]
        exact hs.announced
  | poll hpoll => exact hpoll.inStep hp hs

theorem SessionReachable.inStep {isServer : Bool} {maxWriteBuffer : Nat} {s : YamuxSession}
    (h : SessionReachable isServer maxWriteBuffer notAddressed s) : InStep s := by
  refine h.invariant_with (fun _ hs => SessionReachable.pairsOk hs) ?_ ?_
  · rintro s rfl
    refine ⟨⟨⟨?_, fun _ _ => trivial⟩, rfl⟩, ?_⟩
    · intro id p hp
      cases hp
    · intro p hp
      cases hp
  · intro s s' hp hs hstep
    exact hstep.inStep hp hs

/-- In every run in which no inbound frame addresses an id that is allocated
later: a registered head waits for the payload the reader is in the middle of
if that is its own, and for nothing otherwise; and `on_input` has never failed. -/
theorem heads_in_step {isServer : Bool} {maxWriteBuffer : Nat} {s : YamuxSession}
    (h : (sessionMachine isServer maxWriteBuffer notAddressed).Reachable s) :
    (∀ id p, s.streams.lookup id = some p →
        p.head.recvState = payloadDue s.transport.reader.pending id) ∧
      s.errors = [] := by
  have hs := (sessionMachine_reachable h).inStep
  exact ⟨hs.headsAt.heads.registered, hs.headsAt.errors⟩

/-- A server is polled while a stream is opened with two bytes of payload, of
which one arrives. -/
theorem heads_in_step_accepted :
    ∃ s, (YamuxSession.new Io.new true 0).move
        (.poll [] [.ready (.ok [0, 0, 0, 1, 0, 0, 0, 1, 0, 0, 0, 2, 7])] [] []) = some s ∧
      s.transport.reader.pending = some { streamId := ⟨1⟩, remain := 2 } ∧
      (∀ id p, s.streams.lookup id = some p →
        p.head.recvState = payloadDue s.transport.reader.pending id) ∧
      s.errors = [] := by
  obtain ⟨s, hs, hpending⟩ := Option.map_eq_some_iff.mp (by decide +kernel :
    ((YamuxSession.new Io.new true 0).move
      (.poll [] [.ready (.ok [0, 0, 0, 1, 0, 0, 0, 1, 0, 0, 0, 2, 7])] [] [])).map
        (fun s => s.transport.reader.pending) = some (some { streamId := ⟨1⟩, remain := 2 }))
  refine ⟨s, hs, hpending, heads_in_step (.step (.init rfl) ⟨.poll _ _ _ _, ?_, ?_, hs⟩)⟩
  · exact ⟨List.nodup_nil, rfl⟩
  · intro hopen
    cases hopen

end YamuxLowMem
