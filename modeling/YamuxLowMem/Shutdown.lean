/-
YamuxLowMem/Shutdown.lean

How two sessions come to an end.

`close` queues a `GoAway` behind everything that is queued already, and nothing
but further `GoAway`s gets behind it.  So a peer that has received it has
received everything else.  Apart from that a session only ends when its I/O
object reports an error or the end of the stream: what two sessions say to
each other is never a reason to stop.
-/
import YamuxLowMem.SessionFrames
import YamuxLowMem.Duplex
import YamuxLowMem.InboundTurns
import YamuxLowMem.WriteErrors

namespace YamuxLowMem

open Async Relation Framing

/-! ### `GoAway` comes last -/

/-- Is the frame a `GoAway`? -/
def Frame.isGoAway : Frame → Bool
  | .session event => event.isGoAway
  | .stream _ _ => false

theorem any_isGoAway (fs : List Frame) :
    fs.any Frame.isGoAway = (sessionEvents fs).any FrameSessionEvent.isGoAway := by
  induction fs with
  | nil => rfl
  | cons f fs ih =>
      rw [List.any_cons, ih]
      cases f <;> rfl

/-- A `GoAway` has been sent or queued exactly if `close` has been called, and
behind the first there are only others. -/
structure GoAwayLast (s : YamuxSession) : Prop where
  closed : s.outgoing.any Frame.isGoAway = s.manualClose
  split : ∃ front back, s.outgoing = front ++ back ∧ front.any Frame.isGoAway = false ∧
    back.all Frame.isGoAway = true

section Sessions

variable {s s' : YamuxSession}

theorem PollStep.manualClose (h : PollStep s s') : s'.manualClose = s.manualClose := by
  cases h with
  | flush | send | closeIo | drain | remove => rfl
  | receive hreceive => exact (YamuxSession.receive_inbound hreceive).manualClose

theorem PollStep.steps_manualClose (h : ReflTransGen PollStep s s') :
    s'.manualClose = s.manualClose := by
  induction h with
  | refl => rfl
  | tail _ hstep ih => exact hstep.manualClose.trans ih

/-- Of the moves, only `close` closes. -/
theorem YamuxSession.move_manualClose {m : Move} (hw : s.Wf) (hmove : s.move m = some s')
    (hopen : m.goAways = []) : s'.manualClose = s.manualClose := by
  cases m with
  | openStream =>
      obtain rfl := Option.some.inj hmove
      rfl
  | close code => cases hopen
  | handle ref op =>
      obtain rfl := Option.some.inj hmove
      rw [YamuxSession.handleOp_frame]
  | poll writes reads closes order =>
      have hw' : (s.behave writes reads closes).Wf := ⟨hw.writer, hw.reader⟩
      obtain ⟨answer, s₁, hpoll, hsteps⟩ := pollNext_steps hw' order
      rw [YamuxSession.move, hpoll] at hmove
      obtain rfl := Option.some.inj hmove
      have hstays := PollStep.steps_manualClose hsteps
      exact hstays

namespace GoAwayLast

theorem new (isServer : Bool) (maxWriteBuffer : Nat) :
    GoAwayLast (YamuxSession.new Io.new isServer maxWriteBuffer) :=
  ⟨rfl, [], [], rfl, rfl, rfl⟩

theorem move (h : GoAwayLast s) (hw : s.Wf) {m : Move} (hmove : s.move m = some s') :
    GoAwayLast s' := by
  cases hclose : s.manualClose with
  | true =>
      -- what is added is `GoAway`s
      have hshut := YamuxSession.move_shut hw hclose hmove
      have hown : (m.goAways.map Frame.session).all Frame.isGoAway = true := by
        simpa [Frame.isGoAway] using goAways_isGoAway m
      refine ⟨?_, ?_⟩
      · rw [hshut.manualClose, hshut.outgoing, List.any_append, h.closed, hclose, Bool.true_or]
      · obtain ⟨front, back, hsplit, hfront, hback⟩ := h.split
        refine ⟨front, back ++ m.goAways.map Frame.session, ?_, hfront, ?_⟩
        · rw [hshut.outgoing, hsplit, List.append_assoc]
        · rw [List.all_append, hback, hown, Bool.true_and]
  | false =>
      by_cases hown : m.goAways = []
      · -- no `GoAway` is added
        have hstays := YamuxSession.move_manualClose hw hmove hown
        obtain ⟨new, hnew⟩ := YamuxSession.move_answered hw hmove
        have hpongs : (new.flatMap Frame.pongs).any FrameSessionEvent.isGoAway = false := by
          rw [List.any_eq_false]
          intro e he
          obtain ⟨f, -, hf⟩ := List.mem_flatMap.mp he
          simp [FrameSessionEvent.isGoAway, pongs_isPing f e hf]
        have hnone : s'.outgoing.any Frame.isGoAway = false := by
          rw [any_isGoAway, hnew.events, hown, List.append_nil, List.any_append, hpongs,
            ← any_isGoAway, h.closed, hclose]
          rfl
        exact ⟨hnone.trans (hstays.trans hclose).symm, s'.outgoing, [], by simp, hnone, rfl⟩
      · -- the first one
        obtain ⟨code, rfl⟩ : ∃ code, m = .close code := by
          cases m with
          | close code => exact ⟨code, rfl⟩
          | openStream | handle | poll => exact absurd rfl hown
        obtain rfl := Option.some.inj hmove
        have houtgoing : (s.close code).outgoing = s.outgoing ++ [.session (.goAway code)] :=
          (List.append_assoc _ _ _).symm
        refine ⟨?_, s.outgoing, [.session (.goAway code)], houtgoing, h.closed.trans hclose, rfl⟩
        rw [houtgoing, List.any_append]
        exact Bool.or_true _

end GoAwayLast

end Sessions

section Shutdown

variable {maxWriteBuffer : Role → Nat} {w : World}

theorem World.goAwayLast (h : (callMachine maxWriteBuffer).Reachable w) (r : Role) :
    GoAwayLast (w r).session := by
  revert r
  refine h.invariant_with (Q := fun w => ∀ r, (w r).session.Wf) ?_ ?_ ?_
  · exact fun w hw r => World.wf (callMachine_reachable hw) r
  · rintro w rfl r
    exact .new _ _
  · rintro w w' hwf hw ⟨r, m, a, -, hmove, -, rfl⟩ r'
    by_cases hr : r' = r
    · subst hr
      obtain ⟨s, hs, rfl⟩ := Option.map_eq_some_iff.mp hmove
      rw [Function.update_self]
      exact (hw r').move (hwf r') hs
    · rw [Function.update_of_ne hr]
      exact hw r'

/-- The front of two sequences reaches into the second one if it has something
that the first has not. -/
theorem prefix_append_of_mem {α : Type*} {as bs cs : List α} {a : α} (h : cs <+: as ++ bs)
    (hcs : a ∈ cs) (has : a ∉ as) : ∃ ds, cs = as ++ ds ∧ ds <+: bs := by
  rcases List.prefix_or_prefix_of_prefix h (List.prefix_append as bs) with hle | ⟨ds, rfl⟩
  · exact absurd (hle.subset hcs) has
  · exact ⟨ds, rfl, (List.prefix_append_right_inj as).mp h⟩

/-- A frame of the session is among the tokens of the frames only if it is one
of them. -/
theorem mem_tokens_session {event : FrameSessionEvent} {fs : List Frame} :
    Token.head (.ok (.session event)) ∈ fs.flatMap Frame.tokens ↔ Frame.session event ∈ fs := by
  rw [List.mem_flatMap]
  constructor
  · rintro ⟨f, hf, htoken⟩
    match f with
    | .session event =>
        cases List.mem_singleton.mp htoken
        exact hf
    | .stream id (.data flags size) | .stream id (.windowUpdate flags delta) =>
        cases List.mem_singleton.mp htoken
    | .stream id (.dataChunk chunk) => simp [Frame.tokens] at htoken
  · intro hf
    exact ⟨_, hf, List.mem_singleton.mpr rfl⟩

/-- `GoAway`s belong to no stream. -/
theorem filter_tokens_goAway {fs : List Frame} (h : fs.all Frame.isGoAway = true)
    (id : StreamID) : (fs.flatMap Frame.tokens).filter (tokenOn id) = [] := by
  rw [List.filter_eq_nil_iff]
  intro t ht
  obtain ⟨f, hf, htoken⟩ := List.mem_flatMap.mp ht
  have hgoAway := List.all_eq_true.mp h f hf
  cases f with
  | session event =>
      rw [List.mem_singleton.mp htoken]
      exact Bool.false_ne_true
  | stream id' event => cases hgoAway

/-- What has come in at one end is the front of what the other has to send. -/
theorem World.heard (h : (worldMachine maxWriteBuffer).Reachable w) (r : Role) :
    (w r).session.transport.received.flatMap Frame.tokens <+:
      (w r.peer).session.outgoing.flatMap Frame.tokens := by
  obtain ⟨ha, hpipe⟩ := World.sound h r
  have ho := (World.sound h r.peer).1
  exact ha.reading.reader.heard ho.outbound.wellFormed (hpipe.trans ho.outbound.taken)

/-- A `GoAway` comes from a call of `close`. -/
theorem World.closed_of_heard (h : (callMachine maxWriteBuffer).Reachable w) (r : Role)
    {code : UInt32} (hmem : .session (.goAway code) ∈ (w r).session.transport.received) :
    (w r.peer).session.manualClose = true := by
  have htoken := (World.heard (callMachine_reachable h) r).subset (mem_tokens_session.mpr hmem)
  rw [← (World.goAwayLast h r.peer).closed, List.any_eq_true]
  exact ⟨_, mem_tokens_session.mp htoken, rfl⟩

/-- With a `GoAway` everything has come in. -/
theorem World.heard_all (h : (callMachine maxWriteBuffer).Reachable w) (r : Role) {code : UInt32}
    (hmem : .session (.goAway code) ∈ (w r).session.transport.received) (id : StreamID) :
    streamTokens id (eventsOn id (w r).session.transport.received) =
      streamTokens id (eventsOn id (w r.peer).session.outgoing) := by
  obtain ⟨front, back, hsplit, hfront, hback⟩ := (World.goAwayLast h r.peer).split
  -- the `GoAway` is not among the frames in front, so all of these have come
  have hnot : Token.head (.ok (.session (.goAway code))) ∉ front.flatMap Frame.tokens := by
    rw [mem_tokens_session]
    intro hin
    rw [List.any_eq_false] at hfront
    exact hfront _ hin rfl
  have hparts := World.heard (callMachine_reachable h) r
  rw [hsplit, List.flatMap_append] at hparts
  obtain ⟨ds, hds, hrest⟩ := prefix_append_of_mem hparts (mem_tokens_session.mpr hmem) hnot
  have hnothing := filter_tokens_goAway hback id
  have hds' : ds.filter (tokenOn id) = [] :=
    List.prefix_nil.mp (hnothing ▸ hrest.filter (tokenOn id))
  rw [← filter_tokens, ← filter_tokens, hds, hsplit, List.flatMap_append, List.filter_append,
    List.filter_append, hnothing, hds']

/-- In every run of two sessions, call by call, without empty writes and with fewer
than `2 ^ 31 - 1` calls of `open_stream` at each end: once a `GoAway` has been
received at one end, the other has called `close`, and on every stream all that
its head has put out has been received, so that a stream in use has taken in
every payload byte the other end has put out. -/
theorem shutdown_complete (h : (callMachine maxWriteBuffer).Reachable w) (r : Role)
    {code : UInt32} (hmem : .session (.goAway code) ∈ (w r).session.transport.received) :
    (w r.peer).session.manualClose = true ∧
      ∀ id, streamTokens id (eventsOn id (w r).session.transport.received) =
          streamTokens id (eventsOn id (w r.peer).session.outgoing) ∧
        ∀ q p, (w r).session.streams.lookup id = some q → (w r.peer).session.Holds id p →
          payloadOf q.inputs = payloadOf p.emitted := by
  have hworld := callMachine_reachable h
  refine ⟨World.closed_of_heard h r hmem, fun id => ⟨World.heard_all h r hmem id, ?_⟩⟩
  intro q p hq hp
  have hq' := ((World.sound hworld r).1.tracking.registered id q hq).2
  have hp' := (World.sound hworld r.peer).1.tracking.holds hp
  rw [hq', hp'.emitted, payloadOf_eq_tokens id, World.heard_all h r hmem id,
    ← payloadOf_eq_tokens]

/-- The client opens a stream, writes to it and is closed while the server
listens. -/
def closedBehindData : List (Role × Move) :=
  [(.client, .openStream),
    (.client, .handle (.registered ⟨1⟩) (.write [7, 8])),
    (.client, .poll [] [] [] [⟨1⟩]),
    (.client, .close 5),
    (.client, .poll (List.replicate 4 (.ready (.ok 100))) [] [] [⟨1⟩]),
    (.server, .poll [] [.ready (.ok [0, 1, 0, 1, 0, 0, 0, 1, 0, 4, 0, 0, 0, 0, 0, 0, 0, 0, 0, 1, 0,
      0, 0, 2, 7, 8, 0, 3, 0, 0, 0, 0, 0, 0, 0, 0, 0, 5])] [] []),
    (.server, .poll [] [] [] [⟨1⟩])]

theorem shutdown_complete_exchange :
    ∃ w q p, (World.new fun _ => 100).run closedBehindData = some w ∧
      (w .server).session.streams.lookup ⟨1⟩ = some q ∧
      (w .client).session.streams.lookup ⟨1⟩ = some p ∧ (w .client).session.manualClose = true ∧
      payloadOf q.inputs = [7, 8] ∧ payloadOf q.inputs = payloadOf p.emitted := by
  obtain ⟨w, hrun, hw⟩ := Option.map_eq_some_iff.mp (by decide +kernel :
    ((World.new fun _ => 100).run closedBehindData).map (fun w =>
      (((w .server).session.streams.lookup ⟨1⟩).map fun q => payloadOf q.inputs,
        ((w .client).session.streams.lookup ⟨1⟩).isSome,
        decide (.session (.goAway 5) ∈ (w .server).session.transport.received))) =
      some (some [7, 8], true, true))
  simp only [Prod.mk.injEq, decide_eq_true_eq] at hw
  obtain ⟨hserver, hclient, hmem⟩ := hw
  obtain ⟨q, hq, hbytes⟩ := Option.map_eq_some_iff.mp hserver
  obtain ⟨p, hp⟩ := Option.isSome_iff_exists.mp hclient
  obtain ⟨hclosed, hall⟩ := shutdown_complete (World.reachable_of_run (.init rfl) hrun) .server hmem
  exact ⟨w, q, p, hrun, hq, hp, hclosed, hbytes, (hall ⟨1⟩).2 q p hq (Or.inl hp)⟩

/-! ### Why a session ends -/

/-- What of the transport ends a session. -/
inductive EndsSession : Poll (Option (Except YamuxTransportError Frame)) → Prop where
  | goAway (code : UInt32) : EndsSession (.ready (some (.ok (.session (.goAway code)))))
  | closed : EndsSession (.ready none)
  | failed (e : YamuxTransportError) : EndsSession (.ready (some (.error e)))

section Ending

variable {s s' : YamuxSession}

/-- A frame that ends the session is a `GoAway`. -/
theorem YamuxSession.onFrame_ends {frame : Frame} (h : (s.onFrame frame).1 = some (.ready none)) :
    ∃ code, frame = .session (.goAway code) := by
  match frame with
  | .session (.goAway code) => exact ⟨code, rfl⟩
  | .session (.ping flags code) =>
      simp only [onFrame] at h
      split at h <;> cases h
  | .stream id event =>
      simp only [onFrame] at h
      split at h
      · cases h
      · split at h
        · split at h <;> cases h
        · cases h

/-- If the loop over inbound frames ends the session, then by the last event of
the transport. -/
theorem YamuxSession.inboundLoop_ends {fuel : Nat} (hw : s.Wf)
    (h : s.inboundLoop fuel = some (some (.ready none), s')) :
    ∃ s₁ t event pushed, ReflTransGen PollStep s s₁ ∧
      YamuxTransport.Receive event s₁.transport t pushed ∧ EndsSession event ∧
      s' = { s₁ with transport := t } ∧
      s₁.transport.stream.reads <:+ s.transport.stream.reads := by
  obtain ⟨s₁, hturns, hend⟩ := inboundLoop_turns h
  obtain ⟨-, hsteps⟩ := InboundTurn.pollSteps hturns hw
  obtain ⟨hw₁, hsuffix⟩ := InboundTurn.induct
    (P := fun a => a.transport.stream.reads <:+ s.transport.stream.reads) hturns hw
    List.suffix_rfl fun a b hwa hturn hsuffix => by
      obtain ⟨f, t, pushed, hreceive, rfl⟩ := hturn.receive hwa
      rw [deliver_transport]
      exact hreceive.suffix.trans hsuffix
  obtain ⟨event, t, pushed, hnext, hreceive⟩ := YamuxTransport.pollNext_spec hw₁.reader
  refine ⟨s₁, t, event, pushed, hsteps, hreceive, ?_⟩
  cases hend with
  | closed hnext' =>
      cases hnext.symm.trans hnext'
      exact ⟨.closed, rfl, hsuffix⟩
  | failed hnext' =>
      cases hnext.symm.trans hnext'
      exact ⟨.failed _, rfl, hsuffix⟩
  | frame hnext' hframe =>
      cases hnext.symm.trans hnext'
      obtain ⟨code, rfl⟩ := onFrame_ends (congrArg Prod.fst hframe)
      exact ⟨.goAway code, (congrArg Prod.snd hframe).symm, hsuffix⟩

/-- An error of the last flush comes from the I/O object. -/
theorem YamuxSession.flushSent_ends {sent : Bool} (hw : s.Wf)
    (h : s.flushSent sent = some (.ready none, s')) :
    s'.transport.failed = true ∧ ∃ e, .ready (.error e) ∈ s.transport.stream.writes := by
  cases sent with
  | false => cases h
  | true =>
      obtain ⟨result, t, hwrite, hflush, hsent⟩ := flushSent_spec hw
      have hfailed := YamuxTransport.pollWrite_failed hwrite
      rw [hsent] at h
      rcases result with - | e | u
      · cases h
      · cases h
        exact ⟨hfailed.trans (Bool.or_true _), hflush.flushed.error e rfl⟩
      · cases h

/-- How a call of `poll_next` comes to end the session. -/
theorem YamuxSession.pollNext_ends {order : List StreamID} (hw : s.Wf)
    (hpoll : s.pollNext order = some (.ready none, s')) :
    s.manualClose = true ∨
      (s'.transport.failed = true ∧ ∃ e, .ready (.error e) ∈ s.transport.stream.writes) ∨
      ∃ s₁ t event pushed, ReflTransGen PollStep s s₁ ∧
        YamuxTransport.Receive event s₁.transport t pushed ∧ EndsSession event ∧
        s' = { s₁ with transport := t } ∧
        s₁.transport.stream.reads <:+ s.transport.stream.reads := by
  cases s.course hw order with
  | closing _ hclose _ => exact Or.inl hclose
  | @answered t done rest answer s₂ hsend _ hread hcall =>
      rw [hcall] at hpoll
      obtain ⟨rfl, rfl⟩ := Prod.mk.inj (Option.some.inj hpoll)
      obtain ⟨s₁, t', event, pushed, hsteps, hreceive, hends, heq, hsuffix⟩ :=
        inboundLoop_ends hsend.wf hread.loop
      have hreads : s₁.transport.stream.reads <:+ s.transport.stream.reads := by
        rw [← hsend.run.reads]
        exact hsuffix
      exact Or.inr (Or.inr
        ⟨s₁, t', event, pushed, hsend.steps.trans hsteps, hreceive, hends, heq, hreads⟩)
  | @drained t t' done rest done' rest' s₂ hsend _ hread hsend' hcall =>
      obtain ⟨hfailed, e, hmem⟩ := flushSent_ends hsend'.wf (hcall.symm.trans hpoll)
      refine Or.inr (Or.inl ⟨hfailed, e, ?_⟩)
      have hdrain : (s₂.drainAll order).transport = s₂.transport := (s₂.drainAll_frame order).1
      have hlater : t'.stream.writes <:+ t.stream.writes := by
        have hrun := hsend'.run.writes
        rwa [hdrain, hread.inbound.writes] at hrun
      exact (hlater.trans hsend.run.writes).subset hmem

end Ending

/-- The states inside a call of `poll_next` are reached, if the pipe can hand
over what has been read. -/
theorem World.pollSteps {s : YamuxSession} (h : (worldMachine maxWriteBuffer).Reachable w)
    (r : Role) {writes : List (Poll (Except IoError Nat))}
    {reads : List (Poll (Except IoError Bytes))} {closes : List (Poll (Except IoError Unit))}
    (hsteps : ReflTransGen PollStep ((w r).session.behave writes reads closes) s)
    (hpipe : s.transport.stream.delivered <+: (w r.peer).taken) :
    (worldMachine maxWriteBuffer).Reachable
      (Function.update w r { w r with session := s }) := by
  refine h.steps (World.steps r ?_ hpipe)
  have hbehave : SessionStep plainMove (w r).session
      ((w r).session.behave writes reads closes) :=
    .behave writes reads closes [] ⟨nofun, nofun⟩
  exact ReflTransGen.head hbehave (ReflTransGen.mono (fun _ _ h => SessionStep.poll h) _ _ hsteps)

/-- The event that ends a session of which the I/O object has reported nothing
amiss is a `GoAway` that the peer has sent. -/
theorem World.ends (h : (callMachine maxWriteBuffer).Reachable w) (r : Role)
    {writes : List (Poll (Except IoError Nat))} {reads : List (Poll (Except IoError Bytes))}
    {closes : List (Poll (Except IoError Unit))} {s : YamuxSession} {t : YamuxTransport}
    {event : Poll (Option (Except YamuxTransportError Frame))} {pushed : Bytes}
    (hsteps : ReflTransGen PollStep ((w r).session.behave writes reads closes) s)
    (hreceive : YamuxTransport.Receive event s.transport t pushed) (hends : EndsSession event)
    (hsuffix : s.transport.stream.reads <:+ reads)
    (hpipe : t.stream.delivered <+: (w r.peer).taken) :
    ((w r.peer).session.manualClose = true ∧ ∃ code, .session (.goAway code) ∈ t.received) ∨
      (∃ e, .ready (.error e) :: t.stream.reads <:+ reads) ∨
        .ready (.ok []) :: t.stream.reads <:+ reads := by
  have hworld := callMachine_reachable h
  -- both the state before the last event and the peer are sound
  have hbefore : s.transport.stream.delivered <+: (w r.peer).taken := by
    refine List.IsPrefix.trans ?_ hpipe
    rw [hreceive.delivered]
    exact List.prefix_append _ _
  have hreach := World.pollSteps hworld r hsteps hbefore
  have ha := (World.sound hreach r).1
  have ho := (World.sound hworld r.peer).1
  rw [Function.update_self] at ha
  have hreader := hreceive.reads _ _ ha.reading.reader
  rw [← hreceive.delivered] at hreader
  have hheard := hreader.heard ho.outbound.wellFormed (hpipe.trans ho.outbound.taken)
  cases hends with
  | closed => exact Or.inr (Or.inr ((hreceive.ended rfl).trans hsuffix))
  | failed e =>
      cases e with
      | io e => exact Or.inr (Or.inl ⟨e, (hreceive.ioError e rfl).trans hsuffix⟩)
      | parserError e =>
          -- a well-formed peer sends no header of unknown type
          have hmem : Token.head (.error e) ∈ (w r.peer).session.outgoing.flatMap Frame.tokens :=
            hheard.subset (by simp [eventTokens])
          obtain ⟨f, -, hf⟩ := List.mem_flatMap.mp hmem
          exact absurd hf (f.noUnknown_tokens e)
  | goAway code =>
      have hmem : Token.head (.ok (.session (.goAway code))) ∈
          (w r.peer).session.outgoing.flatMap Frame.tokens :=
        hheard.subset (by simp [eventTokens, Frame.tokens])
      refine Or.inl ⟨?_, code, ?_⟩
      · rw [← (World.goAwayLast h r.peer).closed, List.any_eq_true]
        exact ⟨_, mem_tokens_session.mp hmem, rfl⟩
      · rw [hreceive.received]
        exact List.mem_append_right _ (List.mem_singleton_self _)

/-- In every run of two sessions, call by call, without empty writes and with
fewer than `2 ^ 31 - 1` calls of `open_stream` at each end: a call of `poll_next`
at one end answers `Ready(None)` only if `close` has been called at that end or at
the other, or, in this call, a `poll_write` has returned an error, or the last
answer of `poll_read` was an error or the end of the stream. -/
theorem session_ends_for_a_reason (h : (callMachine maxWriteBuffer).Reachable w) (r : Role)
    {writes : List (Poll (Except IoError Nat))} {reads : List (Poll (Except IoError Bytes))}
    {closes : List (Poll (Except IoError Unit))} {order : List StreamID} {s' : YamuxSession}
    (hpoll : ((w r).session.behave writes reads closes).pollNext order = some (.ready none, s'))
    (hpipe : s'.transport.stream.delivered <+: (w r.peer).taken) :
    (w r).session.manualClose = true ∨ (w r.peer).session.manualClose = true ∨
      s'.transport.failed = true ∨
      (∃ e, .ready (.error e) :: s'.transport.stream.reads <:+ reads) ∨
      .ready (.ok []) :: s'.transport.stream.reads <:+ reads := by
  have hw := World.wf (callMachine_reachable h) r
  have hw' : ((w r).session.behave writes reads closes).Wf := ⟨hw.writer, hw.reader⟩
  rcases YamuxSession.pollNext_ends hw' hpoll with
    hclose | ⟨hwrite, -⟩ | ⟨s₁, t, event, pushed, hsteps, hreceive, hends, rfl, hsuffix⟩
  · exact Or.inl hclose
  · exact Or.inr (Or.inr (Or.inl hwrite))
  · rcases World.ends h r hsteps hreceive hends hsuffix hpipe with ⟨hpeer, -⟩ | hread
    · exact Or.inr (Or.inl hpeer)
    · exact Or.inr (Or.inr (Or.inr hread))

/-- The server meets the `GoAway` of the client. -/
theorem session_ends_for_a_reason_closed :
    ∃ w s', (World.new fun _ => 100).run (closedBehindData.take 6) = some w ∧
      ((w .server).session.behave [] [] []).pollNext [⟨1⟩] = some (.ready none, s') ∧
      (w .client).session.manualClose = true := by
  obtain ⟨w, hrun, hw⟩ := Option.map_eq_some_iff.mp (by decide +kernel :
    ((World.new fun _ => 100).run (closedBehindData.take 6)).map (fun w =>
      ((w .server).session.manualClose,
        ((((w .server).session.behave [] [] []).pollNext [⟨1⟩]).any fun r =>
          decide (r.1 = .ready none ∧ r.2.transport.failed = false) &&
            decide (r.2.transport.stream.delivered <+: (w .client).taken)))) = some (false, true))
  obtain ⟨hopen, hpoll⟩ := Prod.mk.inj hw
  rw [Option.any_eq_true] at hpoll
  obtain ⟨⟨answer, s'⟩, hpoll, hanswer⟩ := hpoll
  rw [Bool.and_eq_true, decide_eq_true_eq, decide_eq_true_eq] at hanswer
  obtain ⟨⟨rfl, hclean⟩, hpipe⟩ := hanswer
  refine ⟨w, s', hrun, hpoll, ?_⟩
  have hreach := World.reachable_of_run (.init rfl) hrun
  rcases session_ends_for_a_reason hreach .server hpoll hpipe with
    hserver | hclient | hfailed | ⟨e, he⟩ | hend
  · rw [hopen] at hserver
    cases hserver
  · exact hclient
  · rw [hclean] at hfailed
    cases hfailed
  · cases List.suffix_nil.mp he
  · cases List.suffix_nil.mp hend

end Shutdown

end YamuxLowMem
