/-
YamuxLowMem/Agreement.lean

A client and a server never misunderstand each other.

An id names at most one stream at each end, from its first use to the end of the
run: `open_stream` does not come back to an id, and no stream sends `SYN` twice.
A stream that has been accepted was opened at the other end.  Every frame that
comes in is taken in by the head it is for, or comes for a stream whose head is
gone, so `on_input` never fails; and since no session starts to ping, there is
nothing to answer.
-/
import YamuxLowMem.Pipes
import YamuxLowMem.Shutdown

namespace YamuxLowMem

open Async Framing

/-- The induction rule for what holds at each end: an end keeps it when it
moves, as long as it held at both. -/
theorem World.each {maxWriteBuffer : Role → Nat} {P : Role → Side → Prop} {w : World}
    (h : (worldMachine maxWriteBuffer).Reachable w)
    (hnew : ∀ r, P r (Side.new r.isServer (maxWriteBuffer r)))
    (hstep : ∀ w r a, (worldMachine maxWriteBuffer).Reachable w → (∀ r', P r' (w r')) →
      Side.Step (w r) a → a.given <+: (w r.peer).taken → P r a) (r : Role) : P r (w r) := by
  revert r
  refine h.invariant_with (fun _ hw => hw) ?_ ?_
  · rintro w rfl r
    exact hnew r
  · rintro w w' hreach hw ⟨r, a, hside, hpipe, rfl⟩ r'
    by_cases hr : r' = r
    · subst hr
      rw [Function.update_self]
      exact hstep w r' a hreach hw hside hpipe
    · rw [Function.update_of_ne hr]
      exact hw r'

/-! ### One stream of each id -/

/-- No id names two streams. -/
def OneEach (s : YamuxSession) : Prop := ∀ id, (s.streamsOf id).length ≤ 1

section OneEach

variable {s s' : YamuxSession} {id : StreamID}

theorem YamuxSession.length_ends (s : YamuxSession) (id : StreamID) :
    (s.ends id).length = (s.streamsOf id).length := List.length_map _

theorem YamuxSession.streamsOf_eq_nil (h : ∀ p, ¬ s.Holds id p) : s.streamsOf id = [] := by
  apply List.eq_nil_iff_forall_not_mem.mpr
  intro p hp
  exact h p (mem_streamsOf.mp hp)

/-- What the streams of an id show stays in number, or is the first. -/
theorem OneEach.of_ends (h : OneEach s)
    (hends : ∀ id, (s'.ends id).length = (s.ends id).length ∨
      s'.ends id = s.ends id ++ [HandleEnds.new] ∧ ∀ p, ¬ s.Holds id p) : OneEach s' := by
  intro id
  rw [← s'.length_ends]
  rcases hends id with hsame | ⟨hnew, hnone⟩
  · rw [hsame, s.length_ends]
    exact h id
  · rw [hnew, YamuxSession.ends, YamuxSession.streamsOf_eq_nil hnone]
    exact Nat.le_refl _

theorem Sound.oneEach {isServer : Bool} {a b o : Side} (ha : Sound isServer a)
    (ho : Sound (!isServer) o) (hstep : Side.Step a b) (hpipe : b.given <+: o.taken)
    (hback : o.given <+: a.taken) (hone : OneEach a.session) : OneEach b.session := by
  apply hone.of_ends
  intro id
  cases hstep with
  | openStream hroom =>
      have hopen := YamuxSession.openStream_ends ha.pairs id
      by_cases hid : id = ⟨a.session.nextStreamId⟩
      · subst hid
        rw [if_pos rfl] at hopen
        -- ids in use are smaller
        refine Or.inr ⟨hopen, fun p hp => ?_⟩
        exact Nat.lt_irrefl _ ((ha.tracking.holds hp).allocated ha.tracking.ownId_next)
      · rw [if_neg hid, List.append_nil] at hopen
        exact Or.inl (congrArg List.length hopen)
  | @other s' hs =>
      obtain ⟨-, hpolite⟩ := ha.heard ho hback hs hpipe
      cases hs with
      | openStream hguard => exact absurd rfl hguard.1
      | close | behave => exact Or.inl rfl
      | handle ref op =>
          obtain ⟨id', hothers, hid'⟩ := a.session.handleOp_ends ref op
          left
          by_cases hid : id = id'
          · subst hid
            exact hid'.length_eq.symm
          · exact congrArg List.length (hothers id hid)
      | poll hpoll =>
          rcases hpoll.ends ha.pairs id with hsame | ⟨hnew, event, hreceived, hsyn⟩
          · exact Or.inl (congrArg List.length hsame)
          · -- the frame that brings a stream is the first on its id
            rw [hreceived] at hpolite
            exact Or.inr ⟨hnew, (hpolite.first ha.tracking hsyn).2⟩

theorem World.oneEach {maxWriteBuffer : Role → Nat} {w : World}
    (h : (worldMachine maxWriteBuffer).Reachable w) (r : Role) : OneEach (w r).session := by
  refine World.each (P := fun _ a => OneEach a.session) h ?_ ?_ r
  · intro r id
    exact Nat.zero_le _
  · intro w r a hreach hone hside hpipe
    obtain ⟨ha, -⟩ := World.sound hreach r
    obtain ⟨ho, hback⟩ := World.sound hreach r.peer
    rw [Role.isServer_peer] at ho
    rw [Role.peer_peer] at hback
    exact ha.oneEach ho hside hpipe hback (hone r)

end OneEach

/-! ### Nothing to answer -/

section Answers

variable {s s' : YamuxSession}

/-- A step puts `GoAway`s into the queue, and answers to what has come in. -/
theorem SessionStep.answered {guard : Guard} (h : SessionStep guard s s') :
    ∃ own new, Answered s s' own new ∧ ∀ e ∈ own, e.isGoAway = true := by
  cases h with
  | openStream | behave =>
      exact ⟨[], [], .quiet rfl (List.append_nil _).symm, fun e he => by cases he⟩
  | close code =>
      refine ⟨[.goAway code], [], .quiet rfl ?_, fun e he => ?_⟩
      · show sessionEvents (s.transport.sent ++ (s.outQueue ++ [_])) = _
        rw [← List.append_assoc, sessionEvents_append, sessionEvents_session]
        rfl
      · rw [List.mem_singleton.mp he]
        rfl
  | handle ref op =>
      refine ⟨[], [], .quiet ?_ ?_, fun e he => by cases he⟩
      · rw [handleOp_transport]
      · rw [YamuxSession.handleOp_frame]
        exact (List.append_nil _).symm
  | poll hpoll =>
      obtain ⟨new, hnew⟩ := hpoll.answered
      exact ⟨[], new, hnew, fun e he => by cases he⟩

/-- All that is sent on behalf of the session is `GoAway`s. -/
def Unpinging (s : YamuxSession) : Prop := ∀ e ∈ sessionEvents s.outgoing, e.isGoAway = true

theorem mem_sessionEvents {e : FrameSessionEvent} {fs : List Frame} :
    e ∈ sessionEvents fs ↔ .session e ∈ fs := by
  rw [sessionEvents, List.mem_filterMap]
  constructor
  · rintro ⟨f, hf, he⟩
    cases f with
    | session event =>
        cases he
        exact hf
    | stream => cases he
  · exact fun h => ⟨_, h, rfl⟩

/-- What comes in from such a session is no ping. -/
theorem Sound.heard_goAway {isServer : Bool} {a o : Side} (ha : Sound isServer a)
    (ho : Outbound o.session) (hpipe : a.given <+: o.taken) (hquiet : Unpinging o.session) :
    ∀ e ∈ sessionEvents a.session.transport.received, e.isGoAway = true := by
  intro e he
  apply hquiet e
  rw [mem_sessionEvents] at he ⊢
  have hheard := ha.reading.reader.heard ho.wellFormed (hpipe.trans ho.taken)
  exact mem_tokens_session.mp (hheard.subset (mem_tokens_session.mpr he))

theorem World.unpinging {maxWriteBuffer : Role → Nat} {w : World}
    (h : (worldMachine maxWriteBuffer).Reachable w) (r : Role) : Unpinging (w r).session := by
  refine World.each (P := fun _ a => Unpinging a.session) h ?_ ?_ r
  · intro r e he
    cases he
  · intro w r a hreach hquiet hside hpipe
    have hsound := (World.sound (hreach.step ⟨r, a, hside, hpipe, rfl⟩) r).1
    obtain ⟨ho, -⟩ := World.sound hreach r.peer
    rw [Function.update_self] at hsound
    have hheard := hsound.heard_goAway ho.outbound hpipe (hquiet r.peer)
    cases hside with
    | openStream => exact hquiet r
    | @other s' hs =>
        obtain ⟨own, new, hanswered, hown⟩ := hs.answered
        intro e he
        rw [hanswered.events, List.mem_append, List.mem_append] at he
        rcases he with (he | he) | he
        · exact hquiet r e he
        · exact hown e he
        · -- only a ping would be answered
          obtain ⟨f, hf, hpong⟩ := List.mem_flatMap.mp he
          have hin : f ∈ s'.transport.received := by
            rw [hanswered.received]
            exact List.mem_append_right _ hf
          match f, hpong with
          | .session (.ping flags code), _ => cases hheard _ (mem_sessionEvents.mpr hin)

end Answers

/-! ### Both ends -/

/-- In every run of a client and a server joined by two byte pipes, without empty
writes and with fewer than `2 ^ 31 - 1` calls of `open_stream` at each end: an id
has named at most one stream at each end; a stream that has been accepted was
opened at the other end; no error of `on_input` has been ignored; and all that
has come in besides the frames of streams is `GoAway`s. -/
theorem sessions_agree {maxWriteBuffer : Role → Nat} {w : World}
    (h : (worldMachine maxWriteBuffer).Reachable w) (r : Role) :
    (∀ id, ((w r).session.streamsOf id).length ≤ 1) ∧
      (∀ id q, ownId r.isServer id = false → (w r).session.Holds id q →
        ∃ p, (w r.peer).session.Holds id p ∧ PairReachable false id q ∧
          PairReachable true id p) ∧
      (w r).session.errors = [] ∧
      ∀ e ∈ sessionEvents (w r).session.transport.received, e.isGoAway = true := by
  obtain ⟨ha, hpipe⟩ := World.sound h r
  obtain ⟨ho, -⟩ := World.sound h r.peer
  rw [Role.isServer_peer] at ho
  refine ⟨World.oneEach h r, ?_, ha.inStep.headsAt.errors,
    ha.heard_goAway ho.outbound hpipe (World.unpinging h r.peer)⟩
  intro id q hown hq
  -- a stream that is not ours has been announced
  have hreach := (ha.tracking.holds hq).reach
  obtain ⟨p, hp⟩ := ha.sender ho hpipe ((ha.tracking.holds hq).announced hown)
  have hreach' := (ho.tracking.holds hp).reach
  rw [hown] at hreach
  rw [ownId_not, hown] at hreach'
  exact ⟨p, hp, hreach, hreach'⟩

/-- The server has accepted the stream the client has opened. -/
theorem sessions_agree_exchange :
    ∃ w q p, (World.new fun _ => 0).run exchange = some w ∧
      (w .server).session.Holds ⟨1⟩ q ∧ (w .client).session.Holds ⟨1⟩ p ∧
      PairReachable false ⟨1⟩ q ∧ PairReachable true ⟨1⟩ p ∧
      ((w .server).session.streamsOf ⟨1⟩).length ≤ 1 ∧ (w .server).session.errors = [] := by
  obtain ⟨w, hrun, hw⟩ := Option.map_eq_some_iff.mp (by decide +kernel :
    ((World.new fun _ => 0).run exchange).map (fun w =>
      ((w .server).session.streams.lookup ⟨1⟩).isSome) = some true)
  obtain ⟨q, hq⟩ := Option.isSome_iff_exists.mp hw
  have hreach := callMachine_reachable (World.reachable_of_run (.init rfl) hrun)
  obtain ⟨hone, hopened, herrors, -⟩ := sessions_agree hreach .server
  obtain ⟨p, hp, hacceptor, hopener⟩ := hopened ⟨1⟩ q (by decide) (Or.inl hq)
  exact ⟨w, q, p, hrun, Or.inl hq, hp, hacceptor, hopener, hone ⟨1⟩, herrors⟩

end YamuxLowMem
