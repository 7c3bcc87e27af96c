/-
YamuxLowMem/Quiescence.lean

Two sessions that are polled come to rest.

While the applications leave their handles alone, nothing happens but calls of
`poll_next`.  If neither session is left out for ever, and the I/O objects take
and hand over what they are asked to, there is a time from which on both
sessions are at rest and everything written has arrived.

What there is to say is bounded (`Traffic`), so at some time no call sends or
receives anything any more; and such a call leaves nothing to be done
(`Willing`).
-/
import YamuxLowMem.Lib.Fair
import YamuxLowMem.Willing
import YamuxLowMem.Traffic
import YamuxLowMem.Delivery
import YamuxLowMem.Pipes

namespace YamuxLowMem

open Async Relation

/-- A call of `poll_next` at the end `r`, on an I/O object that takes all that is
written to it, and hands over all that the pipe has taken from the peer. -/
inductive World.Polled (r : Role) (w : World) : World → Prop where
  | poll {writes : List (Poll (Except IoError Nat))} {reads : List (Poll (Except IoError Bytes))}
      {closes : List (Poll (Except IoError Unit))} {order : List StreamID}
      {answer : Poll (Option YamuxStream)} {s' : YamuxSession} :
      IsOrder (w r).session order →
      ((w r).session.behave writes reads closes).pollNext order = some (answer, s') →
      Willing writes → s'.transport.stream.writes ≠ [] →
      Forthcoming reads → (w r).given ++ readable reads = (w r.peer).taken →
      Polled r w (Function.update w r { w r with session := s' })

/-! ### What a call does -/

section Calls

variable {s s' : YamuxSession}

/-- Traffic only grows. -/
theorem PollStep.steps_grows (h : ReflTransGen PollStep s s') :
    s.transport.stream.accepted <+: s'.transport.stream.accepted ∧
      s.transport.received <+: s'.transport.received := by
  induction h with
  | refl => exact ⟨List.prefix_rfl, List.prefix_rfl⟩
  | @tail t u _ hlast ih =>
      have hstep : SessionStep plainMove t u := .poll hlast
      refine ⟨ih.1.trans hstep.accepted, ih.2.trans ?_⟩
      rcases hstep.arrives with ⟨-, hsame, -⟩ | ⟨event, pushed, hreceive⟩
      · exact hsame ▸ List.prefix_rfl
      · rw [hreceive.received]
        exact List.prefix_append _ _

theorem Side.shown_pollSteps {a : Side} (h : ReflTransGen PollStep a.session s')
    (hpairs : PairsOk a.session) (id : StreamID) :
    Side.shown { a with session := s' } id = a.shown id := by
  induction h with
  | refl => rfl
  | @tail t u hsteps hlast ih =>
      have hpairs' := PollStep.steps_pairsOk hsteps hpairs
      have hsame := Side.shown_pollStep (a := { a with session := t }) hlast hpairs' id
      exact hsame.trans ih

end Calls

/-! ### A pause -/

/-- While the applications pause: what holds of every state reached by polling, for
the pipes as they were when the pause began. -/
structure World.Paused (maxWriteBuffer : Role → Nat) (pipes : Role × StreamID → Pipe UInt8)
    (w : World) : Prop where
  reachable : (callMachine maxWriteBuffer).Reachable w
  running : ∀ r, (w r).session.manualClose = false
  pipes : w.pipes = pipes

section Polling

variable {maxWriteBuffer : Role → Nat} {pipes : Role × StreamID → Pipe UInt8} {r : Role}
  {w w' : World}

namespace World.Paused

variable {writes : List (Poll (Except IoError Nat))} {reads : List (Poll (Except IoError Bytes))}
  {closes : List (Poll (Except IoError Unit))} {order : List StreamID}
  {answer : Poll (Option YamuxStream)} {s' : YamuxSession}

theorem wf (hw : Paused maxWriteBuffer pipes w) :
    ((w r).session.behave writes reads closes).Wf := by
  have hwf := World.wf (callMachine_reachable hw.reachable) r
  exact ⟨hwf.writer, hwf.reader⟩

theorem steps (hw : Paused maxWriteBuffer pipes w)
    (hpoll : ((w r).session.behave writes reads closes).pollNext order = some (answer, s')) :
    ReflTransGen PollStep ((w r).session.behave writes reads closes) s' := by
  obtain ⟨_, _, hpoll', hsteps⟩ := YamuxSession.pollNext_steps hw.wf order
  cases hpoll.symm.trans hpoll'
  exact hsteps

/-- A call does not end the pause. -/
theorem poll (hw : Paused maxWriteBuffer pipes w) (horder : IsOrder (w r).session order)
    (hpoll : ((w r).session.behave writes reads closes).pollNext order = some (answer, s'))
    (hgiven : s'.transport.stream.delivered <+: (w r.peer).taken) :
    Paused maxWriteBuffer pipes (Function.update w r { w r with session := s' }) := by
  have hsteps := hw.steps hpoll
  have hmove : (w r).move (.poll writes reads closes order) =
      some { w r with session := s' } := by
    rw [Side.move, YamuxSession.move, hpoll]
    rfl
  refine ⟨hw.reachable.step ⟨r, .poll writes reads closes order, _, horder, hmove, hgiven, rfl⟩,
    ?_, ?_⟩
  · intro r'
    rcases r.eq_or_eq_peer r' with rfl | rfl
    · rw [Function.update_self]
      exact (PollStep.steps_manualClose hsteps).trans (hw.running r')
    · rw [Function.update_of_ne r.peer_ne]
      exact hw.running r.peer
  · have hpairs := (World.sound (callMachine_reachable hw.reachable) r).1.pairs
    let a : Side := { w r with session := (w r).session.behave writes reads closes }
    have ha : PairsOk a.session := hpairs.congr rfl rfl
    rw [← hw.pipes]
    funext i
    obtain ⟨r', id⟩ := i
    apply pipes_same
    exact Side.shown_pollSteps (a := a) hsteps ha id

/-- Nothing ends a session during a pause. -/
theorem not_ended (hw : Paused maxWriteBuffer pipes w) (hwrites : Willing writes)
    (hreads : Forthcoming reads) (hgiven : s'.transport.stream.delivered <+: (w r.peer).taken) :
    ((w r).session.behave writes reads closes).pollNext order ≠ some (.ready none, s') := by
  intro hpoll
  have hbytes : ∀ {answer}, answer ∈ reads → answer ≠ .ready (.ok []) ∧
      ∀ e, answer ≠ .ready (.error e) := by
    intro answer hmem
    obtain ⟨bs, rfl, hne, -⟩ := hreads answer hmem
    refine ⟨fun h => ?_, fun e h => ?_⟩
    · cases h
      exact hne rfl
    · cases h
  rcases YamuxSession.pollNext_ends hw.wf hpoll with
    hclose | ⟨-, e, he⟩ | ⟨s₁, t, event, pushed, hsteps, hreceive, hends, rfl, hsuffix⟩
  · have hopen : (w r).session.manualClose = true := hclose
    rw [hw.running r] at hopen
    cases hopen
  · obtain ⟨n, hn⟩ := hwrites _ he
    cases hn
  · rcases World.ends hw.reachable r hsteps hreceive hends hsuffix hgiven with
      ⟨hclose, -⟩ | ⟨e, he⟩ | hend
    · rw [hw.running r.peer] at hclose
      cases hclose
    · exact (hbytes (he.subset List.mem_cons_self)).2 e rfl
    · exact (hbytes (hend.subset List.mem_cons_self)).1 rfl

end World.Paused

/-! ### What there is to say -/

instance : Finite Role :=
  Finite.of_injective Role.isServer fun r r' => by cases r <;> cases r' <;> decide

instance : Finite StreamID :=
  Finite.of_injective (fun id => id.val.toFin) fun id id' h => by
    cases id
    cases id'
    exact congrArg StreamID.mk (UInt32.toFin_inj.mp h)

noncomputable instance : Fintype StreamID := Fintype.ofFinite StreamID

/-- All that the end `r` can have to send on behalf of its streams. -/
noncomputable def capacity (pipes : Role × StreamID → Pipe UInt8) (r : Role) : Nat :=
  ∑ id, (headerLen * (2 + (pipes (r, id)).written.length + (pipes (r.peer, id)).written.length) +
    (pipes (r, id)).written.length)

/-- The payload received on a stream was written at the other end. -/
theorem World.received_le (h : (worldMachine maxWriteBuffer).Reachable w) (r : Role)
    (id : StreamID) : (payloadOf (eventsOn id (w r).session.transport.received)).length ≤
      (w.pipes (r.peer, id)).written.length := by
  obtain ⟨ha, hpipe⟩ := World.sound h r
  obtain ⟨ho, -⟩ := World.sound h r.peer
  rw [Role.isServer_peer] at ho
  show _ ≤ ((w r.peer).shown id).written.length
  rcases (w r.peer).shown_eq id with ⟨hnone, -⟩ | ⟨p, hp, hshown⟩
  · -- without a sender nothing has come
    have hnothing : eventsOn id (w r).session.transport.received = [] := by
      by_contra hne
      obtain ⟨p, hp⟩ := ha.sender ho hpipe hne
      exact hnone p hp
    rw [hnothing]
    exact Nat.zero_le _
  · rw [hshown]
    exact ((ha.arrived ho.outbound hpipe id).payload.trans
      (ho.tracking.holds hp).out_written).length_le

/-- The share of a stream is bounded by what has been written on it at both
ends. -/
theorem World.share_le (h : (worldMachine maxWriteBuffer).Reachable w) (r : Role) (id : StreamID) :
    (((w r).session.streamsOf id).map StreamPair.share).sum ≤
      headerLen * (2 + (w.pipes (r, id)).written.length +
        (w.pipes (r.peer, id)).written.length) + (w.pipes (r, id)).written.length := by
  have hone := World.oneEach h r id
  cases hstreams : (w r).session.streamsOf id with
  | nil =>
      rw [List.map_nil, List.sum_nil]
      exact Nat.zero_le _
  | cons p ps =>
      rw [hstreams, List.length_cons, Nat.succ_le_succ_iff, Nat.le_zero,
        List.length_eq_zero_iff] at hone
      subst hone
      have hp : (w r).session.Holds id p := by
        rw [← YamuxSession.mem_streamsOf, hstreams]
        exact List.mem_singleton_self p
      have htracks := (World.sound h r).1.tracking.holds hp
      have hwritten : (w.pipes (r, id)).written = p.handle.written := by
        show ((w r).shown id).written = _
        rw [Side.shown, YamuxSession.ends, hstreams]
        rfl
      -- no chunk is empty
      have hlog : p.up.log.length ≤ p.handle.written.length := by
        rw [← htracks.reach.log_flatten, List.flatten_eq_flatMap]
        exact length_le_flatMap fun c hc hnil => htracks.written (hnil ▸ hc)
      have hinputs : (payloadOf p.inputs).length / grantLen ≤
          (w.pipes (r.peer, id)).written.length :=
        (Nat.div_le_self _ _).trans ((payloadOf_mono htracks.inputs).length_le.trans
          (World.received_le h r id))
      rw [List.map_singleton, List.sum_singleton, hwritten, StreamPair.share]
      gcongr

/-- While `close` has not been called there is nothing else to send. -/
theorem World.Paused.encoding_le (hw : Paused maxWriteBuffer pipes w) (r : Role) :
    (encoding (w r).session.outgoing).length ≤ capacity pipes r := by
  have hworld := callMachine_reachable hw.reachable
  have hnone : sessionEvents (w r).session.outgoing = [] := by
    have hclosed := (World.goAwayLast hw.reachable r).closed
    rw [hw.running r, any_isGoAway, List.any_eq_false] at hclosed
    apply List.eq_nil_iff_forall_not_mem.mpr
    intro e he
    exact hclosed e he (World.unpinging hworld r e he)
  have hall := (World.sound hworld r).1.encoding_le
  rw [hnone, List.length_nil, Nat.mul_zero, Nat.zero_add] at hall
  refine hall.trans ?_
  rw [capacity, ← hw.pipes]
  calc ∑ id ∈ (w r).session.ids, (((w r).session.streamsOf id).map StreamPair.share).sum
      ≤ ∑ id ∈ (w r).session.ids, (headerLen * (2 + (w.pipes (r, id)).written.length +
          (w.pipes (r.peer, id)).written.length) + (w.pipes (r, id)).written.length) := by
        gcongr with id
        exact World.share_le hworld r id
    _ ≤ _ := Finset.sum_le_univ_sum_of_nonneg fun _ => Nat.zero_le _

/-- The bytes taken from an end, and the frames it has received. -/
def Side.traffic (a : Side) : Nat := a.taken.length + a.session.transport.received.length

/-- What two sessions have said to each other so far. -/
def World.traffic (w : World) : Nat := (w .client).traffic + (w .server).traffic

theorem World.traffic_eq (w : World) (r : Role) :
    w.traffic = (w r).traffic + (w r.peer).traffic := by
  cases r with
  | client => rfl
  | server => exact Nat.add_comm _ _

/-- What there is to say is bounded. -/
theorem World.Paused.traffic_le (hw : Paused maxWriteBuffer pipes w) :
    w.traffic ≤ 2 * (capacity pipes .client + capacity pipes .server) := by
  have hworld := callMachine_reachable hw.reachable
  have hside : ∀ r, (w r).traffic ≤ capacity pipes r + capacity pipes r.peer := by
    intro r
    obtain ⟨ha, hpipe⟩ := World.sound hworld r
    have ho := (World.sound hworld r.peer).1.outbound
    exact Nat.add_le_add (ha.outbound.taken.length_le.trans (hw.encoding_le r))
      ((ha.received_le ho hpipe).trans (hw.encoding_le r.peer))
  have hclient : _ ≤ capacity pipes .client + capacity pipes .server := hside .client
  have hserver : _ ≤ capacity pipes .server + capacity pipes .client := hside .server
  rw [World.traffic]
  omega

/-- At any time of a pause, either session can be polled, if the I/O object has
enough to say. -/
theorem World.Paused.exists_polled (hw : Paused maxWriteBuffer pipes w) (r : Role) :
    ∃ w', Polled r w w' := by
  obtain ⟨ha, rest, hrest⟩ := World.sound (callMachine_reachable hw.reachable) r
  -- one byte at a time, and more answers than there can be bytes to write
  obtain ⟨writes, hones, hlen⟩ : ∃ writes : List (Poll (Except IoError Nat)),
      (∀ answer ∈ writes, answer = .ready (.ok 1)) ∧ writes.length = capacity pipes r + 1 :=
    ⟨List.replicate _ _, fun _ => List.eq_of_mem_replicate, List.length_replicate⟩
  obtain ⟨reads, hreads, hreadable⟩ : ∃ reads, Forthcoming reads ∧ readable reads = rest := by
    refine ⟨rest.map fun b => .ready (.ok [b]), fun answer hmem => ?_, ?_⟩
    · obtain ⟨b, -, rfl⟩ := List.mem_map.mp hmem
      exact ⟨[b], rfl, List.cons_ne_nil _ _, Nat.one_le_ofNat⟩
    · simp [readable, List.flatMap_map]
  have hpipe : (w r).given ++ readable reads = (w r.peer).taken := by rw [hreadable, hrest]
  have horder : IsOrder (w r).session (w r).session.streams.keys.toList :=
    ⟨Finset.nodup_toList _, Finset.toList_toFinset _⟩
  have hwf : ((w r).session.behave writes reads []).Wf := hw.wf
  obtain ⟨answer, s', hpoll, hsteps⟩ :=
    YamuxSession.pollNext_steps hwf (w r).session.streams.keys.toList
  obtain ⟨hinput, -⟩ := PollStep.steps_input hsteps hreads
  have hgiven : s'.transport.stream.delivered <+: (w r.peer).taken := ⟨_, hinput.trans hpipe⟩
  have hpaused := hw.poll horder hpoll hgiven
  have hpaid := YamuxSession.pollNext_paid hwf (hw.running r) hones hpoll
  have htaken : s'.transport.stream.accepted.length ≤ capacity pipes r := by
    have hsound := (World.sound (callMachine_reachable hpaused.reachable) r).1
    have hle := hsound.outbound.taken.length_le.trans (hpaused.encoding_le r)
    rwa [Function.update_self] at hle
  refine ⟨_, .poll horder hpoll (fun a ha => ⟨1, hones a ha⟩) ?_ hreads hpipe⟩
  intro hnil
  have hused : s'.transport.stream.accepted.length + s'.transport.stream.writes.length =
      (w r).taken.length + writes.length := hpaid
  rw [hnil, hlen, List.length_nil] at hused
  omega

/-! ### What a call leaves behind -/

/-- A pause in which something will follow whatever is left in a write buffer. -/
structure World.Quiet (maxWriteBuffer : Role → Nat) (pipes : Role × StreamID → Pipe UInt8)
    (w : World) : Prop extends World.Paused maxWriteBuffer pipes w where
  followed : ∀ r, (w r).session.Followed

/-- Nothing is left to do for the end `r`. -/
structure World.Resting (r : Role) (w : World) : Prop where
  rest : (w r).session.AtRest
  buffered : (w r).session.transport.buffered = []
  heard : (w r).given = (w r.peer).taken

theorem World.settled_of_resting (h : ∀ r, Resting r w) : w.Settled := by
  intro r
  have hheard := (h r.peer).heard
  rw [Role.peer_peer] at hheard
  exact ⟨(h r).rest, (h r).buffered, hheard⟩

namespace World.Polled

/-- A call leaves nothing to do, or has received something. -/
structure Turn (r : Role) (w : World) (s' : YamuxSession) : Prop where
  steps : ∃ writes reads closes,
    ReflTransGen PollStep ((w r).session.behave writes reads closes) s'
  followed : s'.Followed
  idle : Resting r (Function.update w r { w r with session := s' }) ∨
    (w r).session.transport.received.length < s'.transport.received.length

theorem turn (h : Polled r w w') (hw : Quiet maxWriteBuffer pipes w) :
    ∃ s', w' = Function.update w r { w r with session := s' } ∧ Turn r w s' ∧
      Paused maxWriteBuffer pipes w' := by
  cases h with
  | @poll writes reads closes order answer s' horder hpoll hwrites hleft hreads hpipe =>
      have hsteps := hw.steps hpoll
      obtain ⟨hinput, -⟩ := PollStep.steps_input hsteps hreads
      have hall : s'.input = (w r.peer).taken := hinput.trans hpipe
      have hgiven : s'.transport.stream.delivered <+: (w r.peer).taken := ⟨_, hall⟩
      suffices hboth : s'.Followed ∧ (Resting r (Function.update w r { w r with session := s' }) ∨
          (w r).session.transport.received.length < s'.transport.received.length) from
        ⟨s', rfl, ⟨⟨writes, reads, closes, hsteps⟩, hboth.1, hboth.2⟩,
          hw.poll horder hpoll hgiven⟩
      rcases answer with - | - | handle
      · obtain ⟨hrest, hbuffered⟩ := YamuxSession.pollNext_willing hw.wf (hw.running r) horder
          (hw.followed r) hwrites hpoll hleft
        obtain ⟨-, hdry, -, -⟩ := YamuxSession.pollNext_pending hw.wf (hw.running r) horder hpoll
        -- the call has read all there was
        have hnone : s'.transport.stream.reads = [] := hdry.eq_nil hreads
        rw [YamuxSession.input, hnone, readable, List.flatMap_nil, List.append_nil] at hall
        refine ⟨Or.inl hbuffered, Or.inl ⟨?_, ?_, ?_⟩⟩
        · rw [Function.update_self]
          exact hrest
        · rw [Function.update_self]
          exact hbuffered
        · rw [Function.update_self, Function.update_of_ne r.peer_ne]
          exact hall
      · exact absurd hpoll (hw.toPaused.not_ended hwrites hreads hgiven)
      · obtain ⟨houts, hlonger⟩ := YamuxSession.pollNext_accepts hw.wf (hw.running r) hpoll
        exact ⟨Or.inr (Or.inr houts), Or.inr hlonger⟩

/-- The next call finds what it needs. -/
theorem quiet (h : Polled r w w') (hw : Quiet maxWriteBuffer pipes w) :
    Quiet maxWriteBuffer pipes w' := by
  obtain ⟨s', rfl, hturn, hpaused⟩ := h.turn hw
  refine ⟨hpaused, fun r' => ?_⟩
  rcases r.eq_or_eq_peer r' with rfl | rfl
  · rw [Function.update_self]
    exact hturn.followed
  · rw [Function.update_of_ne r.peer_ne]
    exact hw.followed r.peer

/-- A call adds to the traffic or leaves nothing to do, and then what there was
nothing left to do at the other end is still so. -/
theorem traffic (h : Polled r w w') (hw : Quiet maxWriteBuffer pipes w) :
    w.traffic ≤ w'.traffic ∧
      (w'.traffic = w.traffic → Resting r w' ∧ ∀ r', Resting r' w → Resting r' w') := by
  obtain ⟨s', rfl, hturn, -⟩ := h.turn hw
  obtain ⟨writes, reads, closes, hsteps⟩ := hturn.steps
  obtain ⟨htaken, hreceived⟩ := PollStep.steps_grows hsteps
  replace htaken : (w r).taken <+: s'.transport.stream.accepted := htaken
  replace hreceived : (w r).session.transport.received <+: s'.transport.received := hreceived
  have hnow : World.traffic (Function.update w r { w r with session := s' }) =
      (s'.transport.stream.accepted.length + s'.transport.received.length) +
        (w r.peer).traffic := by
    rw [traffic_eq _ r, Function.update_self, Function.update_of_ne r.peer_ne]
    rfl
  have hbefore : w.traffic = ((w r).taken.length + (w r).session.transport.received.length) +
      (w r.peer).traffic := traffic_eq w r
  have htaken' := htaken.length_le
  have hreceived' := hreceived.length_le
  rw [hnow, hbefore]
  refine ⟨by omega, fun hsame => ?_⟩
  have hquiet : s'.transport.stream.accepted = (w r).taken :=
    (htaken.eq_of_length_le (by omega)).symm
  have hresting : Resting r (Function.update w r { w r with session := s' }) :=
    hturn.idle.resolve_right (by omega)
  refine ⟨hresting, fun r' hr' => ?_⟩
  rcases r.eq_or_eq_peer r' with rfl | rfl
  · exact hresting
  · obtain ⟨hrest, hbuffered, hheard⟩ := hr'
    rw [Role.peer_peer] at hheard
    refine ⟨?_, ?_, ?_⟩
    · rw [Function.update_of_ne r.peer_ne]
      exact hrest
    · rw [Function.update_of_ne r.peer_ne]
      exact hbuffered
    · -- nothing more has been taken
      rw [Role.peer_peer, Function.update_of_ne r.peer_ne, Function.update_self]
      exact hheard.trans hquiet.symm

end World.Polled

/-- The ends take turns. -/
theorem alternating (r : Role) (n : ℕ) :
    ∃ m, n ≤ m ∧ (if m % 2 = 0 then Role.client else Role.server) = r := by
  cases r with
  | client => exact ⟨2 * n, by omega, if_pos (by omega)⟩
  | server => exact ⟨2 * n + 1, by omega, if_neg (by omega)⟩

/-- From any state that a client and a server joined by two byte pipes reach
without empty writes and with fewer than `2 ^ 31 - 1` calls of `open_stream` at each
end, and in which neither has been closed and nothing is stuck in a write buffer,
let the applications leave the handles alone, and let both sessions be polled
again and again, in any order that leaves neither out for ever, on I/O objects
that take all that is written and hand over all that has been taken.  There are
such runs, and each of them comes to a time from which on both sessions are at
rest with nothing under way, and everything written on a stream has arrived where
the peer has its head registered. -/
theorem polling_settles (hreach : (callMachine maxWriteBuffer).Reachable w)
    (hrunning : ∀ r, (w r).session.manualClose = false)
    (hfollowed : ∀ r, (w r).session.Followed) :
    (∃ run agent, run 0 = w ∧ Run.Fair World.Polled run agent) ∧
      ∀ run agent, run 0 = w → Run.Fair World.Polled run agent → ∃ n, ∀ m, n ≤ m →
        (run m).Settled ∧ ∀ r id p q, (run m r).session.Holds id p →
          (run m r.peer).session.streams.lookup id = some q → Delivered p q := by
  have hstart : World.Quiet maxWriteBuffer w.pipes w := ⟨⟨hreach, hrunning, rfl⟩, hfollowed⟩
  refine ⟨?_, ?_⟩
  · obtain ⟨run, hrun⟩ := Run.exists_fair alternating (fun r v hv => by
      obtain ⟨v', h⟩ := World.Paused.exists_polled hv.toPaused r
      exact ⟨v', h, h.quiet hv⟩) hstart
    exact ⟨run, _, hrun⟩
  · rintro run agent rfl hrun
    have hquiet := hrun.always hstart fun _ _ _ hv h => h.quiet hv
    obtain ⟨n, hn⟩ := hrun.settles hstart (fun _ _ _ hv h => h.quiet hv)
      (fun _ hv => hv.traffic_le) (fun _ _ _ hv h => (h.traffic hv).1)
      (fun _ _ _ hv h => (h.traffic hv).2)
    refine ⟨n, fun m hm => ?_⟩
    have hsettled := World.settled_of_resting (hn m hm)
    exact ⟨hsettled, fun r id p q hp hq => hsettled.delivered (hquiet m).reachable r hp hq⟩

end Polling

/-- The client has opened a stream and written two bytes, and neither session has
been polled. -/
theorem polling_settles_greeting :
    ∃ w run agent n, (World.new fun _ => 0).run (greeting.take 2) = some w ∧ run 0 = w ∧
      Run.Fair World.Polled run agent ∧ (run n).Settled := by
  obtain ⟨w, hrun, hw⟩ := Option.map_eq_some_iff.mp (by decide +kernel :
    ((World.new fun _ => 0).run (greeting.take 2)).map (fun w =>
      decide ((w .client).session.manualClose = false ∧ (w .server).session.manualClose = false ∧
        (w .client).session.transport.buffered = [] ∧
        (w .server).session.transport.buffered = [])) = some true)
  obtain ⟨hclient, hserver, hempty, hempty'⟩ := of_decide_eq_true hw
  have hrunning : ∀ r, (w r).session.manualClose = false := by
    rintro (- | -)
    · exact hclient
    · exact hserver
  have hfollowed : ∀ r, (w r).session.Followed := by
    rintro (- | -)
    · exact Or.inl hempty
    · exact Or.inl hempty'
  obtain ⟨⟨run, agent, hstart, hfair⟩, hsettles⟩ :=
    polling_settles (World.reachable_of_run (.init rfl) hrun) hrunning hfollowed
  obtain ⟨n, hn⟩ := hsettles run agent hstart hfair
  exact ⟨w, run, agent, n, hrun, hstart, hfair, (hn n (Nat.le_refl n)).1⟩

end YamuxLowMem
