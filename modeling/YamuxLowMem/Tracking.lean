/-
YamuxLowMem/Tracking.lean

Every stream accounts for the traffic under its id.

The frames a session has sent or queued on an id are what the stream of that
id has yielded, and the frames it has received on it are what the stream has
taken in, as long as its head is in use; afterwards they are ignored.  This
takes a peer that sends `SYN` once on each of its own ids, and first, and that
answers on ours only (`Polite`), and fewer streams than would use up the ids.
-/
import YamuxLowMem.InStep
import YamuxLowMem.StreamTokens

namespace YamuxLowMem

open Async Relation

/-- A client allocates the odd ids, a server the even ones. -/
def ownId (isServer : Bool) (id : StreamID) : Bool :=
  id.val.toNat % 2 == if isServer then 0 else 1

/-- The first id a session allocates. -/
def firstId (isServer : Bool) : Nat := if isServer then 2 else 1

theorem ownId_not (isServer : Bool) (id : StreamID) :
    ownId (!isServer) id = !ownId isServer id := by
  have hmod : id.val.toNat % 2 < 2 := Nat.mod_lt _ (by decide)
  cases isServer <;> simp only [ownId, Bool.not_true, Bool.not_false, if_true, if_false,
    Bool.false_eq_true] <;> grind

namespace YamuxSession

/-- All frames handed to the transport or waiting for it. -/
def outgoing (s : YamuxSession) : List Frame := s.transport.sent ++ s.outQueue

/-- The session has the stream `p` under `id`, or had it. -/
def Holds (s : YamuxSession) (id : StreamID) (p : StreamPair) : Prop :=
  s.streams.lookup id = some p ∨ p ∈ s.dropped ∧ p.handle.id = id

end YamuxSession

/-- The stream `p` accounts for the events `incoming` and `outgoing` of its id;
`next` is the id its session allocates next. -/
structure Tracks (own : Bool) (next : Nat) (incoming outgoing : List FrameStreamEvent)
    (id : StreamID) (p : StreamPair) : Prop where
  reach : PairReachable own id p
  written : [] ∉ p.up.log
  emitted : p.emitted = outgoing
  inputs : p.inputs <+: incoming
  /-- a stream of our own has been allocated its id -/
  allocated : own = true → id.val.toNat < next
  /-- a stream of the peer has been announced -/
  announced : own = false → incoming ≠ []

/-- `Tracks` in a session. -/
abbrev YamuxSession.Tracks (s : YamuxSession) (isServer : Bool) (id : StreamID) (p : StreamPair) :
    Prop :=
  YamuxLowMem.Tracks (ownId isServer id) s.nextStreamId.toNat
    (eventsOn id s.transport.received) (eventsOn id s.outgoing) id p

/-! ### One stream -/

namespace StreamPair

variable {p : StreamPair}

/-- Whoever writes only non-empty slices puts no empty chunk on the channel. -/
theorem handleOp_written {op : HandleOp} (hop : ∀ buf, op = .write buf → buf ≠ [])
    (hp : [] ∉ p.up.log) : [] ∉ (p.handleOp op).up.log := by
  by_cases hh : p.handleAlive
  · simp only [handleOp, if_pos hh]
    cases op with
    | write buf =>
        have hbuf : buf.take (min buf.length defaultChunkCapacity) ≠ [] := by
          have hlen : 0 < buf.length := List.length_pos_iff.mpr (hop buf rfl)
          apply List.ne_nil_of_length_pos
          rw [List.length_take, defaultChunkCapacity]
          omega
        simp only [pollWrite, YamuxStream.pollWrite]
        split
        · exact hp
        · exact hp
        · simp only [Channel.startSend]
          split_ifs
          · -- the chunk goes to the end of the log
            simp only [Channel.push_log, List.mem_append, List.mem_singleton, not_or]
            exact ⟨hp, Ne.symm hbuf⟩
          · exact hp
          · exact hp
    | close | drop | read bufLen => exact hp
  · simp only [handleOp, if_neg hh]
    exact hp

end StreamPair

namespace Tracks

variable {own : Bool} {next next' : Nat} {incoming incoming' outgoing : List FrameStreamEvent}
  {id : StreamID} {p q : StreamPair}

theorem handleId (h : Tracks own next incoming outgoing id p) : p.handle.id = id := h.reach.ids.2

/-- More may come in. -/
theorem mono (h : Tracks own next incoming outgoing id p) (hnext : next ≤ next')
    (hincoming : incoming <+: incoming') : Tracks own next' incoming' outgoing id p := by
  refine ⟨h.reach, h.written, h.emitted, h.inputs.trans hincoming, ?_, ?_⟩
  · exact fun hown => Nat.lt_of_lt_of_le (h.allocated hown) hnext
  · rintro hown rfl
    exact h.announced hown (List.prefix_nil.mp hincoming)

theorem handleOp (h : Tracks own next incoming outgoing id p) {op : HandleOp}
    (hop : ∀ buf, op = .write buf → buf ≠ []) :
    Tracks own next incoming outgoing id (p.handleOp op) := by
  obtain ⟨-, hemitted, hinputs⟩ := p.handleOp_frame op
  refine ⟨h.reach.steps (StreamPair.handleOp_steps op), StreamPair.handleOp_written hop h.written,
    ?_, ?_, h.allocated, h.announced⟩
  · rw [hemitted]
    exact h.emitted
  · rw [hinputs]
    exact h.inputs

theorem dropHead (h : Tracks own next incoming outgoing id p) :
    Tracks own next incoming outgoing id p.dropHead :=
  ⟨h.reach.step .dropHead, h.written, h.emitted, h.inputs, h.allocated, h.announced⟩

/-- The stream yields events. -/
theorem drained (h : Tracks own next incoming outgoing id p) {events : List FrameStreamEvent}
    {closed : Bool} (hq : Drained p events closed q) :
    Tracks own next incoming (outgoing ++ events) id q := by
  refine ⟨h.reach.steps hq.steps, ?_, ?_, ?_, h.allocated, h.announced⟩
  · rw [hq.upLog]
    exact h.written
  · rw [hq.emitted, h.emitted]
  · rw [hq.inputs]
    exact h.inputs

/-- A stream that has taken in all that has come takes in an event. -/
theorem input (hreach : PairReachable own id p) (hwritten : [] ∉ p.up.log)
    (hemitted : p.emitted = outgoing) (hinputs : p.inputs = incoming)
    (hallocated : own = true → id.val.toNat < next) (halive : p.headAlive)
    {event : FrameStreamEvent} (hin : p.onInput event = (.ok (), q)) :
    Tracks own next (incoming ++ [event]) outgoing id q ∧ q.inputs = incoming ++ [event] := by
  obtain ⟨hstep, hq⟩ := StreamPair.onInput_ok halive hin
  have hframe : (p.onInput event).2.up = p.up ∧ (p.onInput event).2.emitted = p.emitted :=
    ⟨rfl, rfl⟩
  rw [hin] at hframe
  have hall : q.inputs = incoming ++ [event] := by rw [hq, hinputs]
  refine ⟨⟨hreach.step hstep, ?_, ?_, hall ▸ List.prefix_rfl, hallocated, fun _ => ?_⟩, hall⟩
  · rw [hframe.1]
    exact hwritten
  · rw [hframe.2]
    exact hemitted
  · exact List.append_ne_nil_of_right_ne_nil _ (List.cons_ne_nil _ _)

/-- A stream that has just been opened. -/
theorem opened (hallocated : id.val.toNat < next) :
    Tracks true next [] [] id (StreamPair.openStream id) :=
  ⟨.init rfl, List.not_mem_nil, rfl, List.prefix_rfl, fun _ => hallocated, fun h => (by cases h)⟩

/-- The first event of a stream that is accepted for it. -/
theorem accepted {event : FrameStreamEvent}
    (hin : (StreamPair.acceptStream id).onInput event = (.ok (), q)) :
    Tracks false next [event] [] id q ∧ q.inputs = [event] := by
  have hreach : PairReachable false id (StreamPair.acceptStream id) := .init rfl
  exact input hreach List.not_mem_nil rfl rfl (fun h => (by cases h)) rfl hin

end Tracks

/-! ### All streams of a session -/

/-- Every stream accounts for the traffic under its id, and there is no other
traffic. -/
structure Tracking (isServer : Bool) (opened : Nat) (s : YamuxSession) : Prop where
  registered : ∀ id p, s.streams.lookup id = some p →
    s.Tracks isServer id p ∧ p.inputs = eventsOn id s.transport.received
  dropped : ∀ p ∈ s.dropped,
    s.Tracks isServer p.handle.id p ∧ s.streams.lookup p.handle.id = none
  incoming : ∀ id, eventsOn id s.transport.received ≠ [] → ∃ p, s.Holds id p
  outgoing : ∀ id, eventsOn id s.outgoing ≠ [] → ∃ p, s.Holds id p
  next : s.nextStreamId.toNat = firstId isServer + 2 * opened

namespace Tracking

variable {isServer : Bool} {opened opened' : Nat} {s s' : YamuxSession} {id : StreamID}
  {p q : StreamPair}

theorem holds (h : Tracking isServer opened s) (hp : s.Holds id p) : s.Tracks isServer id p := by
  rcases hp with hp | ⟨hp, rfl⟩
  · exact (h.registered id p hp).1
  · exact (h.dropped p hp).1

/-- No traffic is accounted for under an id that is not in use. -/
theorem unused (h : Tracking isServer opened s) (hid : ∀ p, ¬ s.Holds id p) :
    eventsOn id s.transport.received = [] ∧ eventsOn id s.outgoing = [] := by
  constructor
  · by_contra hne
    obtain ⟨p, hp⟩ := h.incoming id hne
    exact hid p hp
  · by_contra hne
    obtain ⟨p, hp⟩ := h.outgoing id hne
    exact hid p hp

/-- Nothing changes but frames that belong to no stream. -/
theorem congr (h : Tracking isServer opened s) (hstreams : s'.streams = s.streams)
    (hdropped : s'.dropped = s.dropped) (hnext : s'.nextStreamId = s.nextStreamId)
    (hincoming : ∀ id, eventsOn id s'.transport.received = eventsOn id s.transport.received)
    (houtgoing : ∀ id, eventsOn id s'.outgoing = eventsOn id s.outgoing) :
    Tracking isServer opened s' := by
  have hholds : ∀ id p, s.Holds id p → s'.Holds id p := by
    intro id p hp
    rw [YamuxSession.Holds, hstreams, hdropped]
    exact hp
  refine ⟨?_, ?_, ?_, ?_, hnext ▸ h.next⟩
  · intro id p hp
    rw [hstreams] at hp
    rw [YamuxSession.Tracks, hincoming, houtgoing, hnext]
    exact h.registered id p hp
  · intro p hp
    rw [hdropped] at hp
    rw [YamuxSession.Tracks, hincoming, houtgoing, hnext, hstreams]
    exact h.dropped p hp
  · intro id hne
    rw [hincoming] at hne
    obtain ⟨p, hp⟩ := h.incoming id hne
    exact ⟨p, hholds id p hp⟩
  · intro id hne
    rw [houtgoing] at hne
    obtain ⟨p, hp⟩ := h.outgoing id hne
    exact ⟨p, hholds id p hp⟩

/-- One stream changes, or is new; the traffic of the others stays. -/
theorem put (h : Tracking isServer opened s) (id : StreamID)
    (hfresh : ∀ p ∈ s.dropped, p.handle.id ≠ id)
    (hstreams : s'.streams = s.streams.insert id q) (hdropped : s'.dropped = s.dropped)
    (hle : s.nextStreamId.toNat ≤ s'.nextStreamId.toNat)
    (hnext : s'.nextStreamId.toNat = firstId isServer + 2 * opened')
    (hincoming : ∀ id', id' ≠ id →
      eventsOn id' s'.transport.received = eventsOn id' s.transport.received)
    (houtgoing : ∀ id', id' ≠ id → eventsOn id' s'.outgoing = eventsOn id' s.outgoing)
    (hq : s'.Tracks isServer id q ∧ q.inputs = eventsOn id s'.transport.received) :
    Tracking isServer opened' s' := by
  have hlookup : s'.streams.lookup id = some q := by rw [hstreams, Finmap.lookup_insert]
  have hothers : ∀ id', id' ≠ id → s'.streams.lookup id' = s.streams.lookup id' := by
    intro id' hid
    rw [hstreams, Finmap.lookup_insert_of_ne _ hid]
  -- the other streams stay where they are
  have hholds : ∀ id', (∃ p, s.Holds id' p) → id' ≠ id → ∃ p, s'.Holds id' p := by
    rintro id' ⟨p, hp⟩ hid
    refine ⟨p, ?_⟩
    rw [YamuxSession.Holds, hothers id' hid, hdropped]
    exact hp
  refine ⟨?_, ?_, ?_, ?_, hnext⟩
  · intro id' p hp
    by_cases hid : id' = id
    · subst hid
      rw [hlookup] at hp
      obtain rfl := Option.some.inj hp
      exact hq
    · rw [hothers id' hid] at hp
      obtain ⟨htracks, hinputs⟩ := h.registered id' p hp
      rw [YamuxSession.Tracks, hincoming id' hid, houtgoing id' hid]
      exact ⟨htracks.mono hle List.prefix_rfl, hinputs⟩
  · intro p hp
    rw [hdropped] at hp
    have hid := hfresh p hp
    obtain ⟨htracks, hnone⟩ := h.dropped p hp
    rw [YamuxSession.Tracks, hincoming _ hid, houtgoing _ hid, hothers _ hid]
    exact ⟨htracks.mono hle List.prefix_rfl, hnone⟩
  · intro id' hne
    by_cases hid : id' = id
    · subst hid
      exact ⟨q, Or.inl hlookup⟩
    · rw [hincoming id' hid] at hne
      exact hholds id' (h.incoming id' hne) hid
  · intro id' hne
    by_cases hid : id' = id
    · subst hid
      exact ⟨q, Or.inl hlookup⟩
    · rw [houtgoing id' hid] at hne
      exact hholds id' (h.outgoing id' hne) hid

/-- A registered id is not that of a dropped stream. -/
theorem fresh_of_lookup (h : Tracking isServer opened s) (hp : s.streams.lookup id = some p) :
    ∀ q ∈ s.dropped, q.handle.id ≠ id := by
  rintro q hq rfl
  rw [(h.dropped q hq).2] at hp
  cases hp

/-- A frame comes for a stream whose head is gone. -/
theorem ignore (h : Tracking isServer opened s) {event : FrameStreamEvent}
    (hnone : s.streams.lookup id = none) (hheld : ∃ p, s.Holds id p)
    (hstreams : s'.streams = s.streams) (hdropped : s'.dropped = s.dropped)
    (hnext : s'.nextStreamId = s.nextStreamId)
    (hincoming : s'.transport.received = s.transport.received ++ [.stream id event])
    (houtgoing : s'.outgoing = s.outgoing) : Tracking isServer opened s' := by
  have hgrows : ∀ id', eventsOn id' s.transport.received <+:
      eventsOn id' s'.transport.received := by
    intro id'
    rw [hincoming, eventsOn_append]
    exact List.prefix_append _ _
  have hholds : ∀ id p, s.Holds id p → s'.Holds id p := by
    intro id p hp
    rw [YamuxSession.Holds, hstreams, hdropped]
    exact hp
  have hothers : ∀ id', id' ≠ id →
      eventsOn id' s'.transport.received = eventsOn id' s.transport.received := by
    intro id' hid
    rw [hincoming, eventsOn_concat_ne id' _ (Ne.symm hid)]
  refine ⟨?_, ?_, ?_, ?_, hnext ▸ h.next⟩
  · intro id' p hp
    rw [hstreams] at hp
    -- the frame is not for a registered stream
    have hid : id' ≠ id := by
      rintro rfl
      rw [hnone] at hp
      cases hp
    rw [YamuxSession.Tracks, hothers id' hid, houtgoing, hnext]
    exact h.registered id' p hp
  · intro p hp
    rw [hdropped] at hp
    obtain ⟨htracks, hp'⟩ := h.dropped p hp
    rw [YamuxSession.Tracks, houtgoing, hnext, hstreams]
    exact ⟨htracks.mono (Nat.le_refl _) (hgrows _), hp'⟩
  · intro id' hne
    by_cases hid : id' = id
    · subst hid
      obtain ⟨p, hp⟩ := hheld
      exact ⟨p, hholds _ p hp⟩
    · rw [hothers id' hid] at hne
      obtain ⟨p, hp⟩ := h.incoming id' hne
      exact ⟨p, hholds id' p hp⟩
  · intro id' hne
    rw [houtgoing] at hne
    obtain ⟨p, hp⟩ := h.outgoing id' hne
    exact ⟨p, hholds id' p hp⟩

/-- A head is dropped. -/
theorem remove (h : Tracking isServer opened s) (id : StreamID) :
    Tracking isServer opened (s.removeStream id) := by
  have hlookup : ∀ id', (s.removeStream id).streams.lookup id' =
      if id' = id then none else s.streams.lookup id' := by
    intro id'
    by_cases hid : id' = id
    · subst hid
      rw [YamuxSession.removeStream, Finmap.lookup_erase, if_pos rfl]
    · rw [YamuxSession.removeStream, Finmap.lookup_erase_ne hid, if_neg hid]
  have hmem : ∀ p, p ∈ (s.removeStream id).dropped ↔
      p ∈ s.dropped ∨ ∃ old, s.streams.lookup id = some old ∧ p = old.dropHead := by
    intro p
    simp only [YamuxSession.removeStream]
    cases s.streams.lookup id with
    | none => simp
    | some old => simp
  have hholds : ∀ id', (∃ p, s.Holds id' p) → ∃ p, (s.removeStream id).Holds id' p := by
    rintro id' ⟨p, hp | ⟨hp, hid⟩⟩
    · by_cases hid : id' = id
      · subst hid
        exact ⟨p.dropHead, Or.inr ⟨(hmem _).mpr (Or.inr ⟨p, hp, rfl⟩),
          (h.registered _ p hp).1.handleId⟩⟩
      · refine ⟨p, Or.inl ?_⟩
        rw [hlookup, if_neg hid]
        exact hp
    · exact ⟨p, Or.inr ⟨(hmem p).mpr (Or.inl hp), hid⟩⟩
  refine ⟨?_, ?_, fun id' hne => hholds id' (h.incoming id' hne),
    fun id' hne => hholds id' (h.outgoing id' hne), h.next⟩
  · intro id' p hp
    rw [hlookup] at hp
    split at hp
    · cases hp
    · exact h.registered id' p hp
  · intro p hp
    rcases (hmem p).mp hp with hp | ⟨old, hold, rfl⟩
    · obtain ⟨htracks, hnone⟩ := h.dropped p hp
      refine ⟨htracks, ?_⟩
      rw [hlookup]
      split
      · rfl
      · exact hnone
    · -- the stream that has just lost its head
      have htracks := (h.registered id old hold).1
      have hid : old.dropHead.handle.id = id := htracks.handleId
      rw [hid, hlookup, if_pos rfl]
      exact ⟨htracks.dropHead, rfl⟩

/-- The application uses a handle. -/
theorem handleOp (h : Tracking isServer opened s) (ref : HandleRef) {op : HandleOp}
    (hop : ∀ buf, op = .write buf → buf ≠ []) : Tracking isServer opened (s.handleOp ref op) := by
  cases ref with
  | registered id =>
      simp only [YamuxSession.handleOp]
      cases hp : s.streams.lookup id with
      | none => exact h
      | some p =>
          obtain ⟨htracks, hinputs⟩ := h.registered id p hp
          refine h.put id (h.fresh_of_lookup hp) rfl rfl (Nat.le_refl _) h.next (fun _ _ => rfl)
            (fun _ _ => rfl) ⟨htracks.handleOp hop, ?_⟩
          rw [(p.handleOp_frame op).2.2]
          exact hinputs
  | dropped index =>
      -- a member of the new list is an old one, or an old one used
      have hmem : ∀ p ∈ (s.handleOp (.dropped index) op).dropped, ∃ old ∈ s.dropped,
          p = old ∨ p = old.handleOp op := by
        intro p hp
        rw [YamuxSession.handleOp, List.mem_iff_getElem?] at hp
        obtain ⟨i, hi⟩ := hp
        rw [List.getElem?_modify] at hi
        obtain ⟨old, hold, rfl⟩ := Option.map_eq_some_iff.mp hi
        refine ⟨old, List.mem_of_getElem? hold, ?_⟩
        split
        · exact Or.inr rfl
        · exact Or.inl rfl
      have hheld : ∀ id', (∃ p, s.Holds id' p) →
          ∃ p, (s.handleOp (.dropped index) op).Holds id' p := by
        rintro id' ⟨p, hp | ⟨hp, rfl⟩⟩
        · exact ⟨p, Or.inl hp⟩
        · obtain ⟨i, hi⟩ := List.mem_iff_getElem?.mp hp
          have hget : (s.handleOp (.dropped index) op).dropped[i]? =
              some (if index = i then p.handleOp op else p) := by
            rw [YamuxSession.handleOp, List.getElem?_modify, hi]
            split <;> rfl
          refine ⟨_, Or.inr ⟨List.mem_of_getElem? hget, ?_⟩⟩
          split
          · exact ((h.dropped p hp).1.handleOp hop).handleId
          · rfl
      refine ⟨h.registered, ?_, fun id' hne => hheld id' (h.incoming id' hne),
        fun id' hne => hheld id' (h.outgoing id' hne), h.next⟩
      intro p hp
      obtain ⟨old, hold, rfl | rfl⟩ := hmem p hp
      · exact h.dropped _ hold
      · obtain ⟨htracks, hnone⟩ := h.dropped old hold
        have htracks' := htracks.handleOp hop
        have hid : (old.handleOp op).handle.id = old.handle.id := htracks'.handleId
        rw [hid]
        exact ⟨htracks', hnone⟩

/-- A head yields what it has. -/
theorem drain (h : Tracking isServer opened s) (hp : s.streams.lookup id = some p)
    (hlive : Live id p) : Tracking isServer opened (s.drainStream id p).1 := by
  obtain ⟨htracks, hinputs⟩ := h.registered id p hp
  have hdrained := hlive.drain
  have houtgoing : (s.drainStream id p).1.outgoing = s.outgoing ++
      (YamuxSession.drainHead (YamuxSession.drainWork p) p).1.map (Frame.stream id) :=
    (List.append_assoc _ _ _).symm
  refine h.put id (h.fresh_of_lookup hp) rfl rfl (Nat.le_refl _) h.next (fun _ _ => rfl) ?_ ⟨?_, ?_⟩
  · intro id' hid
    rw [houtgoing, eventsOn_append, eventsOn_map_ne id' (Ne.symm hid), List.append_nil]
  · rw [YamuxSession.Tracks, houtgoing, eventsOn_append, eventsOn_map]
    exact htracks.drained hdrained
  · exact hdrained.inputs.trans hinputs

/-- The next id is one of our own. -/
theorem ownId_next (h : Tracking isServer opened s) : ownId isServer ⟨s.nextStreamId⟩ = true := by
  rw [ownId, h.next]
  cases isServer <;> simp [firstId]

/-- A stream is opened under the next id. -/
theorem openStream (h : Tracking isServer opened s) (hroom : opened + 1 < 2 ^ 31 - 1) :
    Tracking isServer (opened + 1) s.openStream := by
  have hfirst : firstId isServer ≤ 2 := by cases isServer <;> decide
  have hnext : s.openStream.nextStreamId.toNat = s.nextStreamId.toNat + 2 := by
    have hadd : (s.nextStreamId + 2).toNat = s.nextStreamId.toNat + 2 := by
      rw [UInt32.toNat_add]
      apply Nat.mod_eq_of_lt
      show s.nextStreamId.toNat + 2 < 2 ^ 32
      rw [h.next]
      omega
    have hne : s.nextStreamId + 2 ≠ 0 := by
      intro hzero
      rw [hzero] at hadd
      cases hadd
    show (if s.nextStreamId + 2 = 0 then (2 : UInt32) else s.nextStreamId + 2).toNat = _
    rw [if_neg hne, hadd]
  have hown := h.ownId_next
  -- ids already in use are smaller
  have hfresh : ∀ p, ¬ s.Holds ⟨s.nextStreamId⟩ p := by
    intro p hp
    exact Nat.lt_irrefl _ ((h.holds hp).allocated hown)
  obtain ⟨hincoming, houtgoing⟩ := h.unused hfresh
  have hnone : s.streams.lookup ⟨s.nextStreamId⟩ = none := by
    cases hp : s.streams.lookup ⟨s.nextStreamId⟩ with
    | none => rfl
    | some p => exact absurd (Or.inl hp) (hfresh p)
  refine h.put (q := StreamPair.openStream ⟨s.nextStreamId⟩) ⟨s.nextStreamId⟩
    (fun p hp hid => hfresh p (Or.inr ⟨hp, hid⟩)) rfl ?_ ?_ ?_ (fun _ _ => rfl) (fun _ _ => rfl) ?_
  · simp only [YamuxSession.openStream, YamuxSession.insertStream, hnone]
  · rw [hnext]
    exact Nat.le_add_right _ _
  · rw [hnext, h.next]
    omega
  · rw [YamuxSession.Tracks, hown]
    have hout : eventsOn ⟨s.nextStreamId⟩ s.openStream.outgoing = [] := houtgoing
    have hin : eventsOn ⟨s.nextStreamId⟩ s.openStream.transport.received = [] := hincoming
    rw [hout, hin, hnext]
    exact ⟨.opened (Nat.lt_add_of_pos_right (by decide)), rfl⟩

end Tracking

/-! ### Frames come in -/

/-- A peer that keeps the ids apart: on an id of its own the first frame
carries `SYN` and no other does; on an id of ours it sends nothing before we
do, and no `SYN`. -/
structure Polite (isServer : Bool) (s : YamuxSession) (incoming : List Frame) : Prop where
  foreign : ∀ id, ownId isServer id = false → ∀ e es, eventsOn id incoming = e :: es →
    e.carries Flags.syn = true ∧ carried Flags.syn es = false
  own : ∀ id, ownId isServer id = true → eventsOn id incoming ≠ [] →
    (∃ p, s.Holds id p) ∧ carried Flags.syn (eventsOn id incoming) = false

section Receiving

variable {isServer : Bool} {opened : Nat} {s s' : YamuxSession} {t : YamuxTransport}
  {frame : Frame} {id : StreamID} {event : FrameStreamEvent}

/-- A frame with `SYN` is the first one on its id, and the id is the peer's. -/
theorem Polite.first (h : Polite isServer s (s.transport.received ++ [.stream id event]))
    (hs : Tracking isServer opened s) (hsyn : event.carries Flags.syn = true) :
    ownId isServer id = false ∧ ∀ p, ¬ s.Holds id p := by
  have hon : eventsOn id (s.transport.received ++ [.stream id event]) =
      eventsOn id s.transport.received ++ [event] := by simp
  cases hown : ownId isServer id with
  | true =>
      have hne : eventsOn id (s.transport.received ++ [.stream id event]) ≠ [] := by simp [hon]
      have hnot := (h.own id hown hne).2
      rw [hon, carried_append, carried_cons, hsyn, Bool.true_or, Bool.or_true] at hnot
      cases hnot
  | false =>
      refine ⟨rfl, ?_⟩
      intro p hp
      -- the stream in use has been announced by an earlier frame
      obtain ⟨e, es, hes⟩ := List.exists_cons_of_ne_nil ((hs.holds hp).announced hown)
      have hnot := (h.foreign id hown e (es ++ [event]) (by rw [hon, hes]; rfl)).2
      rw [carried_append, carried_cons, hsyn, Bool.true_or, Bool.or_true] at hnot
      cases hnot

/-- A frame without `SYN` is on an id that is or was in use. -/
theorem Polite.held (h : Polite isServer s (s.transport.received ++ [.stream id event]))
    (hs : Tracking isServer opened s) (hsyn : event.carries Flags.syn = false) :
    ∃ p, s.Holds id p := by
  have hon : eventsOn id (s.transport.received ++ [.stream id event]) =
      eventsOn id s.transport.received ++ [event] := by simp
  cases hown : ownId isServer id with
  | true => exact (h.own id hown (by simp [hon])).1
  | false =>
      by_contra hnot
      have hempty := (hs.unused fun p hp => hnot ⟨p, hp⟩).1
      rw [hempty] at hon
      have hfirst := (h.foreign id hown event [] hon).1
      rw [hsyn] at hfirst
      cases hfirst

/-- A frame comes for a registered stream. -/
theorem Tracking.inputFrame (hs : Tracking isServer opened s) {p : StreamPair}
    (hp : s.streams.lookup id = some p) (hlive : Live id p)
    (hok : (p.onInput event).1 = .ok ())
    (hstreams : s'.streams = s.streams.insert id (p.onInput event).2)
    (hdropped : s'.dropped = s.dropped) (hnext : s'.nextStreamId = s.nextStreamId)
    (hreceived : s'.transport.received = s.transport.received ++ [.stream id event])
    (houtgoing : s'.outgoing = s.outgoing) : Tracking isServer opened s' := by
  obtain ⟨htracks, hinputs⟩ := hs.registered id p hp
  have hin := Tracks.input htracks.reach htracks.written htracks.emitted hinputs
    htracks.allocated hlive.alive (Prod.ext hok rfl)
  refine hs.put id (hs.fresh_of_lookup hp) hstreams hdropped (Nat.le_of_eq (by rw [hnext]))
    (by rw [hnext]; exact hs.next) (fun id' hid => ?_) (fun id' _ => by rw [houtgoing]) ?_
  · rw [hreceived, eventsOn_concat_ne id' _ (Ne.symm hid)]
  · rw [YamuxSession.Tracks, hreceived, eventsOn_concat_self, houtgoing, hnext]
    exact hin

/-- A stream is accepted. -/
theorem Tracking.acceptFrame (hs : Tracking isServer opened s)
    (hpolite : Polite isServer s (s.transport.received ++ [.stream id event]))
    (hsyn : event.carries Flags.syn = true)
    (hok : ((StreamPair.acceptStream id).onInput event).1 = .ok ())
    (hstreams : s'.streams = s.streams.insert id ((StreamPair.acceptStream id).onInput event).2)
    (hdropped : s'.dropped = s.dropped) (hnext : s'.nextStreamId = s.nextStreamId)
    (hreceived : s'.transport.received = s.transport.received ++ [.stream id event])
    (houtgoing : s'.outgoing = s.outgoing) : Tracking isServer opened s' := by
  obtain ⟨hown, hfresh⟩ := hpolite.first hs hsyn
  obtain ⟨hincoming, hout⟩ := hs.unused hfresh
  refine hs.put id (fun p hp hid => hfresh p (Or.inr ⟨hp, hid⟩)) hstreams hdropped
    (Nat.le_of_eq (by rw [hnext])) (by rw [hnext]; exact hs.next) (fun id' hid => ?_)
    (fun id' _ => by rw [houtgoing]) ?_
  · rw [hreceived, eventsOn_concat_ne id' _ (Ne.symm hid)]
  · rw [YamuxSession.Tracks, hreceived, eventsOn_concat_self, houtgoing, hout, hincoming, hown,
      List.nil_append]
    exact Tracks.accepted (Prod.ext hok rfl)

/-- The session deals with a frame; `t` is the transport that has yielded it. -/
theorem Dispatch.tracking {pending pending' : Option PendingPayload}
    (h : Dispatch { s with transport := t } frame s')
    (harrival : Arrival pending (.ready (some (.ok frame))) pending') (hat : HeadsAt pending s)
    (hpairs : PairsOk s) (hsent : t.sent = s.transport.sent)
    (hreceived : t.received = s.transport.received ++ [frame])
    (hs : Tracking isServer opened s)
    (hpolite : Polite isServer s (s.transport.received ++ [frame])) :
    Tracking isServer opened s' := by
  have hquiet : t.sent ++ s.outQueue = s.outgoing := by
    rw [hsent]
    rfl
  cases h with
  | ping code =>
      refine hs.congr rfl rfl rfl (fun id => ?_) fun id => ?_
      · show eventsOn id t.received = _
        rw [hreceived, eventsOn_concat_session]
      · show eventsOn id (t.sent ++ (s.outQueue ++ [_])) = _
        rw [← List.append_assoc, eventsOn_concat_session, hquiet]
  | quiet event =>
      refine hs.congr rfl rfl rfl (fun id => ?_) fun id => ?_
      · show eventsOn id t.received = _
        rw [hreceived, eventsOn_concat_session]
      · show eventsOn id (t.sent ++ s.outQueue) = _
        rw [hquiet]
  | @input id p event hp =>
      have hok := (harrival.onInput (hat.heads.registered id p hp)).1
      rw [hok]
      exact hs.inputFrame hp (hpairs.registered id p hp) hok rfl rfl rfl hreceived hquiet
  | @accept id event flags hnone hflags hsyn =>
      have hcarries : event.carries Flags.syn = true := by
        rw [FrameStreamEvent.carries, hflags]
        exact hsyn
      have hok : ((StreamPair.acceptStream id).onInput event).1 = .ok () := by
        apply (harrival.onInput ?_).1
        -- only a frame with flags is accepted, so the reader was between payloads
        cases harrival with
        | frame => rfl
        | chunk => cases hflags
        | nothing hnot => exact absurd rfl (hnot _)
      rw [hok]
      refine hs.acceptFrame hpolite hcarries hok rfl ?_ rfl hreceived hquiet
      simp only [YamuxSession.insertStream, YamuxSession.logError, hnone]
  | @unknown id event hnone hsyn =>
      have hcarries : event.carries Flags.syn = false := by
        rw [FrameStreamEvent.carries]
        cases hflags : event.flags with
        | none => rfl
        | some flags => exact hsyn flags hflags
      exact hs.ignore hnone (hpolite.held hs hcarries) rfl rfl rfl hreceived hquiet

theorem PollStep.tracking (h : PollStep s s') (hpairs : PairsOk s) (hin : InStep s)
    (hs : Tracking isServer opened s) (hpolite : Polite isServer s s'.transport.received) :
    Tracking isServer opened s' := by
  cases h with
  | @flush t result hflush =>
      refine hs.congr rfl rfl rfl (fun id => ?_) fun id => ?_
      · show eventsOn id t.received = _
        rw [hflush.received]
      · show eventsOn id (t.sent ++ s.outQueue) = _
        rw [hflush.sent]
        rfl
  | @send t out rest hq hsend =>
      obtain ⟨b, rfl⟩ := YamuxTransport.startSend_eq hsend
      refine hs.congr rfl rfl rfl (fun _ => rfl) fun id => ?_
      show eventsOn id (s.transport.sent ++ [out] ++ rest) = _
      rw [YamuxSession.outgoing, hq, List.append_assoc, List.singleton_append]
  | closeIo => exact hs.congr rfl rfl rfl (fun _ => rfl) fun _ => rfl
  | @receive t event pushed hreceive =>
      have hreceived := hreceive.received
      have hsent := hreceive.sent
      rw [YamuxSession.deliver_transport] at hpolite
      -- only a frame changes what has arrived
      by_cases hframe : ∃ frame, event = .ready (some (.ok frame))
      · obtain ⟨frame, rfl⟩ := hframe
        have hdispatch := YamuxSession.onFrame_dispatch { s with transport := t } frame
        rw [show t.received = s.transport.received ++ [frame] from hreceived] at hpolite
        exact hdispatch.tracking hreceive.arrival hin.headsAt hpairs hsent hreceived hs hpolite
      · have hnot : ∀ frame, event ≠ .ready (some (.ok frame)) :=
          fun frame heq => hframe ⟨frame, heq⟩
        have hnone := eventFrames_eq_nil hnot
        rw [YamuxSession.deliver_of_not_frame hnot]
        refine hs.congr rfl rfl rfl (fun id => ?_) fun id => ?_
        · show eventsOn id t.received = _
          rw [hreceived, hnone, List.append_nil]
        · show eventsOn id (t.sent ++ s.outQueue) = _
          rw [hsent]
          rfl
  | drain hp => exact hs.drain hp (hpairs.registered _ _ hp)
  | remove id => exact hs.remove id

/-- Every move of the application and the I/O object but `open_stream`, and no
write of nothing. -/
def plainMove : Guard := fun _ m =>
  m ≠ .openStream ∧ ∀ ref buf, m = .handle ref (.write buf) → buf ≠ []

theorem SessionStep.tracking (h : SessionStep plainMove s s') (hpairs : PairsOk s)
    (hin : InStep s) (hs : Tracking isServer opened s)
    (hpolite : Polite isServer s s'.transport.received) : Tracking isServer opened s' := by
  cases h with
  | openStream hguard => exact absurd rfl hguard.1
  | close code =>
      refine hs.congr rfl rfl rfl (fun _ => rfl) fun id => ?_
      show eventsOn id (s.transport.sent ++ (s.outQueue ++ [_])) = _
      rw [← List.append_assoc, eventsOn_concat_session]
      rfl
  | handle ref op hguard =>
      apply hs.handleOp ref
      intro buf hbuf
      exact hguard.2 ref buf (by rw [hbuf])
  | behave => exact hs.congr rfl rfl rfl (fun _ => rfl) fun _ => rfl
  | poll hpoll => exact hpoll.tracking hpairs hin hs hpolite

end Receiving

end YamuxLowMem
