/-
YamuxLowMem/Delivery.lean

Flow control does not get stuck.

A head that has used up its window waits for the peer to give credit, and the
peer gives credit when enough payload has arrived.  So data could be held up
for ever if all the credit there is were neither in the window nor on its way.
It is not: where both sessions are at rest and everything written has been
handed over, the law of conservation leaves the sender all but a part of the
threshold, so it is not waiting for credit, and all that was written has
arrived; and so has the end, if the handle was closed.

The receiver has to have its head.  The streams without one are those whose
head has found itself closed, so nothing is held back there either.
-/
import YamuxLowMem.WorldCredit
import YamuxLowMem.EndToEnd
import YamuxLowMem.Rest
import YamuxLowMem.InboundTurns

namespace YamuxLowMem

open Async

/-! ### Streams that are given up are finished -/

/-- The head has closed both halves, and has nothing left to yield. -/
structure Finished (p : StreamPair) : Prop where
  isClosed : p.head.state.isClosed = true
  outs : p.head.outs = []

/-- Heads are dropped when they are finished, and only then. -/
abbrev YamuxSession.DropsFinished : YamuxSession → Prop := Pairs (fun _ _ => True) Finished

namespace YamuxSession

variable {s s' : YamuxSession}

theorem DropsFinished.dispatch {frame : Frame} (h : s.DropsFinished)
    (hframe : Dispatch s frame s') : s'.DropsFinished := by
  cases hframe with
  | ping | quiet | unknown => exact h.congr rfl rfl
  | input event hp => exact (Pairs.setStream h trivial).logError _
  | @accept id event flags hnone =>
      apply Pairs.logError
      refine ⟨fun _ _ _ => trivial, ?_⟩
      simpa [insertStream, hnone] using h.dropped

theorem DropsFinished.onFrame {t : YamuxTransport} {f : Frame}
    {answer : Option (Poll (Option YamuxStream))} (h : s.DropsFinished)
    (hframe : YamuxSession.onFrame { s with transport := t } f = (answer, s')) :
    s'.DropsFinished := by
  have ht : DropsFinished { s with transport := t } := h.congr rfl rfl
  have hdispatch := onFrame_dispatch { s with transport := t } f
  rw [hframe] at hdispatch
  exact ht.dispatch hdispatch

theorem DropsFinished.inboundLoop {fuel : Nat} {answer : Option (Poll (Option YamuxStream))}
    (h : s.DropsFinished) (hloop : s.inboundLoop fuel = some (answer, s')) :
    s'.DropsFinished := by
  obtain ⟨s₁, hturns, hend⟩ := inboundLoop_turns hloop
  have h₁ : s₁.DropsFinished := by
    clear hend
    induction hturns with
    | refl => exact h
    | tail _ hlast ih =>
        cases hlast with
        | frame _ hframe => exact ih.onFrame hframe
  cases hend with
  | dry | closed | failed => exact h₁.congr rfl rfl
  | frame _ hframe => exact h₁.onFrame hframe

theorem DropsFinished.drainAll {order : List StreamID} (h : s.DropsFinished)
    (hnodup : order.Nodup) : (s.drainAll order).DropsFinished := by
  obtain ⟨-, hlookup, -, hframe⟩ := drainHeads_spec (s := s) hnodup
  have hdropped : (s.drainHeads order).1.dropped = s.dropped := by rw [hframe]
  refine ⟨fun _ _ _ => trivial, ?_⟩
  intro q hq
  rw [(s.drainAll_removed hnodup).dropped, hdropped] at hq
  rcases List.mem_append.mp hq with hq | hq
  · exact h.dropped q hq
  · -- a stream whose head has just reported the end
    obtain ⟨id, hid, hq⟩ := List.mem_flatMap.mp hq
    obtain ⟨hmem, hfound⟩ := List.mem_filter.mp hid
    rw [hlookup, if_pos hmem] at hq
    rw [foundClosed] at hfound
    cases hreg : s.streams.lookup id with
    | none =>
        rw [hreg] at hfound
        cases hfound
    | some p =>
        rw [hreg] at hq hfound
        obtain ⟨houts, hclosed⟩ := StreamPair.pollNext_eq_none_iff.mp (drainHead_over hfound)
        rw [List.mem_singleton.mp hq]
        exact ⟨hclosed, houts⟩

theorem DropsFinished.pollNext {order : List StreamID} {answer : Poll (Option YamuxStream)}
    (h : s.DropsFinished) (hnodup : order.Nodup) (hpoll : s.pollNext order = some (answer, s')) :
    s'.DropsFinished := by
  obtain ⟨⟨s₁, sent⟩, hsend, hpoll⟩ := Option.bind_eq_some_iff.mp hpoll
  obtain ⟨hstreams, hdropped⟩ := trySend_streams hsend
  have h₁ : s₁.DropsFinished := h.congr hstreams hdropped
  simp only at hpoll
  split at hpoll
  · obtain ⟨hstreams, hdropped⟩ := pollClosing_streams hpoll
    exact h₁.congr hstreams hdropped
  · obtain ⟨⟨answer₂, s₂⟩, hloop, hpoll⟩ := Option.bind_eq_some_iff.mp hpoll
    have h₂ := h₁.inboundLoop hloop
    cases answer₂ with
    | some answer₂ =>
        cases hpoll
        exact h₂
    | none =>
        obtain ⟨⟨s₃, sent'⟩, hsend', hflush⟩ := Option.bind_eq_some_iff.mp hpoll
        obtain ⟨hstreams, hdropped⟩ := trySend_streams hsend'
        obtain ⟨hstreams', hdropped'⟩ := flushSent_streams hflush
        exact (h₂.drainAll hnodup).congr (hstreams'.trans hstreams) (hdropped'.trans hdropped)

end YamuxSession

theorem Finished.handleOp {p : StreamPair} (h : Finished p) (op : HandleOp) :
    Finished (p.handleOp op) := by
  have hhead := (p.handleOp_frame op).1
  refine ⟨?_, ?_⟩
  · rw [hhead]
    exact h.isClosed
  · rw [hhead]
    exact h.outs

/-- In every run, call by call. -/
theorem World.dropsFinished {maxWriteBuffer : Role → Nat} {w : World}
    (h : (callMachine maxWriteBuffer).Reachable w) (r : Role) :
    (w r).session.DropsFinished := by
  revert r
  refine h.invariant_with (fun _ hw => World.sound (callMachine_reachable hw)) ?_ ?_
  · rintro w rfl r
    exact ⟨fun _ _ _ => trivial, fun p hp => (by cases hp)⟩
  · rintro w w' hsound hw ⟨r, m, a, hallowed, hmove, -, rfl⟩ r'
    by_cases hr : r' = r
    · subst hr
      rw [Function.update_self]
      obtain ⟨s, hs, rfl⟩ := Option.map_eq_some_iff.mp hmove
      show s.DropsFinished
      cases m with
      | openStream =>
          obtain rfl := Option.some.inj hs
          refine ⟨fun _ _ _ => trivial, ?_⟩
          -- the id is new, so no head is replaced
          have htracking := (hsound r').1.tracking
          have hnone : (w r').session.streams.lookup ⟨(w r').session.nextStreamId⟩ = none := by
            cases hp : (w r').session.streams.lookup ⟨(w r').session.nextStreamId⟩ with
            | none => rfl
            | some p =>
                have hlt := (htracking.holds (Or.inl hp)).allocated htracking.ownId_next
                exact absurd hlt (Nat.lt_irrefl _)
          have hdropped := (hw r').dropped
          simpa [YamuxSession.openStream, YamuxSession.insertStream, hnone] using hdropped
      | close code =>
          obtain rfl := Option.some.inj hs
          exact (hw r').congr rfl rfl
      | handle ref op =>
          obtain rfl := Option.some.inj hs
          exact Pairs.handleOp (hw r') ref op (fun _ _ _ => trivial) fun _ hp => hp.handleOp op
      | poll writes reads closes order =>
          obtain ⟨⟨answer, s₁⟩, hpoll, rfl⟩ := Option.map_eq_some_iff.mp hs
          have hbehave : ((w r').session.behave writes reads closes).DropsFinished :=
            (hw r').congr rfl rfl
          exact hbehave.pollNext hallowed.1 hpoll
    · rw [Function.update_of_ne hr]
      exact hw r'

/-! ### Both ends at rest -/

/-- One end is at rest, and the pipe to its peer `o` has taken everything and
handed it over. -/
structure Side.Settled (a o : Side) : Prop where
  rest : a.session.AtRest
  buffered : a.session.transport.buffered = []
  given : o.given = a.taken

/-- Both ends are. -/
def World.Settled (w : World) : Prop := ∀ r, Side.Settled (w r) (w r.peer)

namespace Sound

variable {isServer : Bool} {a o : Side} {id : StreamID} {p q : StreamPair}

/-- All that was sent is heard. -/
theorem settled_tokens (ha : Sound isServer a) (ho : Sound (!isServer) o)
    (hsettled : Side.Settled a o) (hrest : o.session.AtRest) :
    o.session.transport.received.flatMap Frame.tokens =
      a.session.outgoing.flatMap Frame.tokens := by
  have houtgoing : a.session.outgoing = a.session.transport.sent := by
    rw [YamuxSession.outgoing, hsettled.rest.outQueue, List.append_nil]
  have htaken : a.taken = encoding a.session.outgoing := by
    have hbytes := ha.outbound.bytes
    rw [hsettled.buffered, List.append_nil] at hbytes
    rw [houtgoing]
    exact hbytes
  have hdecoded := hrest.reader.decoded ho.reading.reader
  have hgiven : o.session.transport.stream.delivered = encoding a.session.outgoing :=
    hsettled.given.trans htaken
  have hblocks : FrameBlocks a.session.outgoing := ha.outbound.wellFormed
  rw [← hdecoded, hgiven, hblocks.decode_encoding]

/-- On each stream. -/
theorem settled_arrived (ha : Sound isServer a) (ho : Sound (!isServer) o)
    (hsettled : Side.Settled a o) (hrest : o.session.AtRest) (id : StreamID) :
    streamTokens id (eventsOn id o.session.transport.received) =
      streamTokens id (eventsOn id a.session.outgoing) := by
  rw [← filter_tokens, ← filter_tokens, ha.settled_tokens ho hsettled hrest]

/-- All that the head of a stream has put out is on its way. -/
theorem settled_history (ha : Sound isServer a) (hrest : a.session.AtRest)
    (hfinished : a.session.DropsFinished) (hp : a.session.Holds id p) :
    p.history = eventsOn id a.session.outgoing := by
  have houts : p.head.outs = [] := by
    rcases hp with hp | ⟨hp, -⟩
    · exact (hrest.heads id p hp).outs
    · exact (hfinished.dropped p hp).outs
  rw [StreamPair.history, (ha.tracking.holds hp).emitted, houts, List.append_nil]

/-- The head of a stream that both have is not out of credit. -/
theorem settled_window (ha : Sound isServer a) (ho : Sound (!isServer) o)
    (hsettled : Side.Settled a o) (hback : Side.Settled o a)
    (hafinished : a.session.DropsFinished) (hofinished : o.session.DropsFinished)
    (hp : a.session.streams.lookup id = some p) (hq : o.session.streams.lookup id = some q) :
    defaultChunkCapacity ≤ p.head.window.send := by
  have hpipe : a.given <+: o.taken := hback.given ▸ List.prefix_rfl
  have hpipe' : o.given <+: a.taken := hsettled.given ▸ List.prefix_rfl
  have hbalanced := ha.balanced ho hpipe hpipe' hp hq
  obtain ⟨hptracks, hpinputs⟩ := ha.tracking.registered id p hp
  obtain ⟨hqtracks, hqinputs⟩ := ho.tracking.registered id q hq
  have hphistory := ha.settled_history hsettled.rest hafinished (Or.inl hp)
  have hqhistory := ho.settled_history hback.rest hofinished (Or.inl hq)
  -- nothing is under way
  have hpayload : payloadUnderWay p q = 0 := by
    have hforth := ha.settled_arrived ho hsettled hback.rest id
    have hsame : payloadOf q.inputs = payloadOf p.history := by
      rw [hqinputs, hphistory, payloadOf_eq_tokens id, hforth, ← payloadOf_eq_tokens]
    rw [payloadUnderWay, hptracks.reach.outgoing.blocks.announced_eq, hsame, Nat.sub_self]
  have hcredit : creditUnderWay p q = 0 := by
    have ha' : Sound (!!isServer) a := by
      rw [Bool.not_not]
      exact ha
    have hcome := ho.settled_arrived ha' hback hsettled.rest id
    have hsame : total FrameStreamEvent.delta p.inputs =
        total FrameStreamEvent.delta q.history := by
      rw [hpinputs, hqhistory, total_delta_eq_tokens id, hcome, ← total_delta_eq_tokens]
    rw [creditUnderWay, hsame, Nat.sub_self]
  have hconserved := hbalanced.conserved
  have hrecv := hqtracks.reach.recv_lt
  have hconst : defaultChunkCapacity + defaultWindowUpdateThreshold.toNat ≤
      2 * initialWindow.toNat := by decide
  omega

/-- Everything written has gone out, and the end if there is one. -/
theorem settled_out (ha : Sound isServer a) (ho : Sound (!isServer) o)
    (hsettled : Side.Settled a o) (hback : Side.Settled o a)
    (hafinished : a.session.DropsFinished) (hofinished : o.session.DropsFinished)
    (hp : a.session.Holds id p) (hq : o.session.streams.lookup id = some q) :
    p.up.queue = [] ∧ payloadOf p.history = p.handle.written ∧
      (p.up.senderOpen = false → carried Flags.fin p.history = true) := by
  have htracks := ha.tracking.holds hp
  have hfin := htracks.reach.fin_history
  rcases hp with hp | ⟨hp, hid⟩
  · have hidle := hsettled.rest.heads id p hp
    have hroom := ha.settled_window ho hsettled hback hafinished hofinished hp hq
    have hqueue := hidle.taken hroom
    have hall := htracks.reach.writtenInv.all (ha.pairs.registered id p hp).alive
    rw [hqueue, List.flatten_nil, List.append_nil] at hall
    refine ⟨hqueue, hall, ?_⟩
    intro hclosed
    rw [hfin, hidle.noticed hroom hclosed]
    rfl
  · -- the head has been dropped because it was finished
    have hclosed := (hafinished.dropped p hp).isClosed
    have hlocal : p.head.state.localOpen = false := by
      rw [State.isClosed, Bool.and_eq_true, Bool.not_eq_true'] at hclosed
      exact hclosed.1
    have hpipe : a.given <+: o.taken := hback.given ▸ List.prefix_rfl
    have hreset : carried Flags.rst p.inputs = false := by
      obtain ⟨hqtracks, -⟩ := ho.tracking.registered id q hq
      apply htracks.inputs_noReset
      exact (ha.arrived ho.outbound hpipe id).carries_not hqtracks.noReset
    obtain ⟨-, hqueue, hall⟩ := htracks.reach.finInv.closed hreset htracks.written hlocal
    refine ⟨hqueue, hall, fun _ => ?_⟩
    rw [hfin, hlocal]
    rfl

end Sound

/-- What was written at `p` has arrived at `q`. -/
structure Delivered (p q : StreamPair) : Prop where
  taken : p.up.queue = []
  arrived : payloadOf q.inputs = p.handle.written
  /-- what has not been read yet can be read -/
  readable : q.handleAlive →
    q.handle.read ++ q.handle.rest ++ q.down.queue.flatten = p.handle.written
  /-- the end of the stream has arrived too -/
  ended : p.up.senderOpen = false → carried Flags.fin q.inputs = true

section Settled

variable {maxWriteBuffer : Role → Nat} {w : World} {id : StreamID} {p q : StreamPair}

/-- What the head of a stream has put out has arrived under its id. -/
theorem World.Settled.heard (hsettled : w.Settled) (h : (callMachine maxWriteBuffer).Reachable w)
    (r : Role) (hp : (w r).session.Holds id p) :
    streamTokens id (eventsOn id (w r.peer).session.transport.received) =
      streamTokens id p.history := by
  obtain ⟨ha, -⟩ := World.sound (callMachine_reachable h) r
  obtain ⟨ho, -⟩ := World.sound (callMachine_reachable h) r.peer
  rw [Role.isServer_peer] at ho
  have hback := hsettled r.peer
  rw [ha.settled_history (hsettled r).rest (World.dropsFinished h r) hp]
  exact ha.settled_arrived ho (hsettled r) hback.rest id

/-- What has been written has arrived where the head of the stream is. -/
theorem World.Settled.delivered (hsettled : w.Settled)
    (h : (callMachine maxWriteBuffer).Reachable w) (r : Role) (hp : (w r).session.Holds id p)
    (hq : (w r.peer).session.streams.lookup id = some q) : Delivered p q := by
  obtain ⟨ha, -⟩ := World.sound (callMachine_reachable h) r
  obtain ⟨ho, -⟩ := World.sound (callMachine_reachable h) r.peer
  rw [Role.isServer_peer] at ho
  have hback := hsettled r.peer
  rw [Role.peer_peer] at hback
  have hheard := hsettled.heard h r hp
  obtain ⟨hqtracks, hqinputs⟩ := ho.tracking.registered id q hq
  obtain ⟨hqueue, hwritten, hended⟩ := ha.settled_out ho (hsettled r) hback
    (World.dropsFinished h r) (World.dropsFinished h r.peer) hp hq
  rw [← hqinputs] at hheard
  have harrived : payloadOf q.inputs = p.handle.written := by
    rw [← hwritten, payloadOf_eq_tokens id, hheard, ← payloadOf_eq_tokens]
  refine ⟨hqueue, harrived, ?_, ?_⟩
  · intro halive
    have hread := hqtracks.reach.readInv
    obtain ⟨popped, hlog, hpopped⟩ := hread.popped halive
    rw [← harrived, ← hread.tracks halive, hlog, List.flatten_append, hpopped]
  · intro hclosed
    have hsame : Arrived id p.history q.inputs := by
      rw [Arrived, hheard]
    exact hsame.carries (hended hclosed)

/-- In every run of a client and a server joined by two byte pipes, call by
call, without empty writes and with fewer than `2 ^ 31 - 1` calls of `open_stream`
at each end: whenever both sessions are at rest and the pipes have taken and
handed over everything, each stream of one session is known to the other, and as
long as that one has the head of the stream registered, everything written has
arrived there: all of it has been read or is ready to be read, and if the
writing handle has been closed or dropped, the `FIN` has arrived. -/
theorem settled_delivers {maxWriteBuffer : Role → Nat} {w : World}
    (h : (callMachine maxWriteBuffer).Reachable w) (hsettled : w.Settled) (r : Role)
    {id : StreamID} {p : StreamPair} (hp : (w r).session.Holds id p) :
    (∃ q, (w r.peer).session.Holds id q) ∧
      ∀ q, (w r.peer).session.streams.lookup id = some q → Delivered p q := by
  obtain ⟨ha, -⟩ := World.sound (callMachine_reachable h) r
  obtain ⟨ho, -⟩ := World.sound (callMachine_reachable h) r.peer
  have hheard := hsettled.heard h r hp
  refine ⟨?_, fun q hq => hsettled.delivered h r hp hq⟩
  -- the first event has arrived, and has made the stream known
  obtain ⟨rest, hfirst, -⟩ := (ha.tracking.holds hp).reach.outgoing
  apply ho.tracking.incoming id
  intro hnone
  rw [hnone, hfirst, streamTokens_nil, streamTokens_cons] at hheard
  cases hheard

end Settled

theorem World.of_call {w w' : World} {r : Role} {m : Move} (h : w.call r m = some w') :
    (w r).Allowed m ∧ (w r).move m = some (w' r) ∧ (w' r).given <+: (w r.peer).taken ∧
      w' = Function.update w r (w' r) := by
  rw [World.call] at h
  split at h
  · rename_i hallowed
    obtain ⟨a, hmove, hpipe⟩ := Option.bind_eq_some_iff.mp h
    split at hpipe
    · rename_i hprefix
      obtain rfl := Option.some.inj hpipe
      rw [Function.update_self]
      exact ⟨hallowed, hmove, hprefix, rfl⟩
    · cases hpipe
  · cases h

theorem World.reachable_of_call {maxWriteBuffer : Role → Nat} {w w' : World} {r : Role} {m : Move}
    (hw : (callMachine maxWriteBuffer).Reachable w) (h : w.call r m = some w') :
    (callMachine maxWriteBuffer).Reachable w' := by
  obtain ⟨hallowed, hmove, hpipe, heq⟩ := World.of_call h
  exact hw.step ⟨r, m, w' r, hallowed, hmove, hpipe, heq⟩

/-- A poll that answers `Pending` and leaves nothing queued leaves its session at
rest. -/
theorem World.atRest_of_call {maxWriteBuffer : Role → Nat} {w w' : World} {r : Role}
    {writes : List (Poll (Except IoError Nat))} {reads : List (Poll (Except IoError Bytes))}
    {closes : List (Poll (Except IoError Unit))} {order : List StreamID}
    (hw : (callMachine maxWriteBuffer).Reachable w)
    (hcall : w.call r (.poll writes reads closes order) = some w')
    (hopen : (w r).session.manualClose = false)
    (hpending : (((w r).session.behave writes reads closes).pollNext order).map Prod.fst =
      some .pending)
    (hqueue : (w' r).session.outQueue = []) : (w' r).session.AtRest := by
  obtain ⟨horder, hmove, -⟩ := World.of_call hcall
  have hwf := World.wf (callMachine_reachable hw) r
  obtain ⟨s, hs, hs'⟩ := Option.map_eq_some_iff.mp hmove
  obtain ⟨⟨answer, s₁⟩, hpoll, rfl⟩ := Option.map_eq_some_iff.mp hs
  rw [hpoll] at hpending
  obtain rfl : answer = .pending := Option.some.inj hpending
  have hwf' : ((w r).session.behave writes reads closes).Wf := ⟨hwf.writer, hwf.reader⟩
  obtain ⟨-, -, hstarved, hidle⟩ := YamuxSession.pollNext_pending hwf' hopen horder hpoll
  rw [← hs'] at hqueue ⊢
  exact ⟨hqueue, hstarved, hidle⟩

/-- The client opens a stream and writes to it; the server accepts it. -/
def greeting : List (Role × Move) :=
  [(.client, .openStream),
    (.client, .handle (.registered ⟨1⟩) (.write [7, 8])),
    (.client, .poll (List.replicate 4 (.ready (.ok 100))) [] [] [⟨1⟩]),
    (.server, .poll []
      [.ready (.ok [0, 1, 0, 1, 0, 0, 0, 1, 0, 4, 0, 0, 0, 0, 0, 0, 0, 0, 0, 1, 0, 0, 0, 2, 7, 8])]
      [] [])]

/-- Then the server takes in the payload and answers, and the client hears it. -/
theorem settled_delivers_greeting :
    ∃ w p q, (callMachine fun _ => 0).Reachable w ∧ w.Settled ∧
      (w .client).session.streams.lookup ⟨1⟩ = some p ∧
      (w .server).session.streams.lookup ⟨1⟩ = some q ∧ Delivered p q := by
  let takesAll : List (Poll (Except IoError Nat)) := List.replicate 4 (.ready (.ok 100))
  let ack : List (Poll (Except IoError Bytes)) :=
    [.ready (.ok [0, 1, 0, 2, 0, 0, 0, 1, 0, 4, 0, 0])]
  have hall : (((World.new fun _ => 0).run greeting).bind fun w₁ =>
      (w₁.call .server (.poll takesAll [] [] [⟨1⟩])).bind fun w₂ =>
      (w₂.call .client (.poll [] ack [] [⟨1⟩])).map fun w =>
      decide (((w₁ .server).session.manualClose = false ∧
          (((w₁ .server).session.behave takesAll [] []).pollNext [⟨1⟩]).map Prod.fst =
            some .pending ∧ (w₂ .server).session.outQueue = []) ∧
        ((w₂ .client).session.manualClose = false ∧
          (((w₂ .client).session.behave [] ack []).pollNext [⟨1⟩]).map Prod.fst =
            some .pending ∧ (w .client).session.outQueue = []) ∧
        ((w .client).session.transport.buffered = [] ∧
          (w .server).session.transport.buffered = [] ∧
          (w .server).given = (w .client).taken ∧ (w .client).given = (w .server).taken) ∧
        ((w .client).session.streams.lookup ⟨1⟩).isSome = true ∧
        ((w .server).session.streams.lookup ⟨1⟩).isSome = true)) = some true := by
    decide +kernel
  obtain ⟨w₁, hrun, hall⟩ := Option.bind_eq_some_iff.mp hall
  obtain ⟨w₂, hserver, hall⟩ := Option.bind_eq_some_iff.mp hall
  obtain ⟨w, hclient, hall⟩ := Option.map_eq_some_iff.mp hall
  obtain ⟨⟨hopen₁, hpending₁, hqueue₁⟩, ⟨hopen₂, hpending₂, hqueue₂⟩,
    ⟨hbuffered, hbuffered', hgiven, hgiven'⟩, hpsome, hqsome⟩ := of_decide_eq_true hall
  have hreach₁ : (callMachine fun _ => 0).Reachable w₁ := World.reachable_of_run (.init rfl) hrun
  have hreach₂ := World.reachable_of_call hreach₁ hserver
  have hreach := World.reachable_of_call hreach₂ hclient
  have hrest₁ := World.atRest_of_call hreach₁ hserver hopen₁ hpending₁ hqueue₁
  have hrest₂ := World.atRest_of_call hreach₂ hclient hopen₂ hpending₂ hqueue₂
  -- the client's poll leaves the server alone
  have hsame : w .server = w₂ .server := by
    rw [(World.of_call hclient).2.2.2]
    rfl
  rw [← hsame] at hrest₁
  have hsettled : w.Settled := by
    rintro (- | -)
    · exact ⟨hrest₂, hbuffered, hgiven⟩
    · exact ⟨hrest₁, hbuffered', hgiven'⟩
  obtain ⟨p, hp⟩ := Option.isSome_iff_exists.mp hpsome
  obtain ⟨q, hq⟩ := Option.isSome_iff_exists.mp hqsome
  exact ⟨w, p, q, hreach, hsettled, hp, hq,
    (settled_delivers hreach hsettled .client (Or.inl hp)).2 q hq⟩

end YamuxLowMem
