/-
YamuxLowMem/StreamIds.lean

The identifiers of the two sides, and how they come to collide.

`src/SPEC.md` gives the odd identifiers to the client, the even ones to the
server, and 0 to the session.  `open_stream` keeps to this, but its counter
wraps around after 2^31 calls or so, and it does not ask whether the stream
that had the identifier before is gone.  Nor is the identifier of an incoming
`SYN` looked at: `is_client`, `is_server` and `is_session` have no callers.
If the peer keeps to the rule, and no stream outlives a turn of the counter,
the two sides never collide.
-/
import YamuxLowMem.Drain

namespace YamuxLowMem

open Async Relation

/-! ### Identifiers -/

namespace StreamID

/-- The peer of a server is a client, and the other way round. -/
def isRemote (isServer : Bool) (id : StreamID) : Bool :=
  !id.isSession && if isServer then id.isClient else id.isServer

theorem isClient_eq (id : StreamID) : id.isClient = decide (id.val.toNat % 2 = 1) := by
  rw [isClient, Bool.beq_eq_decide_eq, decide_eq_decide, ← UInt32.toNat_inj, UInt32.toNat_and]
  exact iff_of_eq (congrArg (· = 1) (Nat.and_one_is_mod _))

theorem isServer_eq (id : StreamID) : id.isServer = decide (id.val.toNat % 2 = 0) := by
  rw [isServer, Bool.beq_eq_decide_eq, decide_eq_decide, ← UInt32.toNat_inj, UInt32.toNat_and]
  exact iff_of_eq (congrArg (· = 0) (Nat.and_one_is_mod _))

end StreamID

/-- The number of identifiers `open_stream` has to give out. -/
def idCount (isServer : Bool) : Nat := if isServer then 2147483647 else 2147483648

/-- The identifier given out by the call of `open_stream` with `n` calls
before it. -/
def openedId (isServer : Bool) (n : Nat) : StreamID :=
  ⟨UInt32.ofNat ((if isServer then 2 else 1) + 2 * (n % idCount isServer))⟩

theorem openedId_toNat (isServer : Bool) (n : Nat) :
    (openedId isServer n).val.toNat =
      (if isServer then 2 else 1) + 2 * (n % idCount isServer) := by
  cases isServer <;> simp only [openedId, idCount, UInt32.toNat_ofNat', if_true] <;> simp <;> omega

theorem openedId_next (isServer : Bool) (n : Nat) :
    (if (openedId isServer n).val + 2 = 0 then 2 else (openedId isServer n).val + 2) =
      (openedId isServer (n + 1)).val := by
  have hnow := openedId_toNat isServer n
  have hnext := openedId_toNat isServer (n + 1)
  have hadd := UInt32.toNat_add (openedId isServer n).val 2
  rw [← UInt32.toNat_inj, hnext]
  split
  · rename_i hzero
    rw [hzero] at hadd
    cases isServer <;> simp [idCount] at * <;> omega
  · rename_i hnot
    rw [← UInt32.toNat_inj] at hnot
    cases isServer <;> simp [idCount] at * <;> omega

theorem openedId_not_remote (isServer : Bool) (n : Nat) :
    (openedId isServer n).isRemote isServer = false := by
  have hval := openedId_toNat isServer n
  rw [StreamID.isRemote, StreamID.isClient_eq, StreamID.isServer_eq, hval]
  cases isServer <;> simp [Nat.add_mod]

/-- Calls less than one turn of the counter apart give out different
identifiers. -/
theorem openedId_ne {isServer : Bool} {k n : Nat} (hk : k < n) (hn : n - k < idCount isServer) :
    openedId isServer k ≠ openedId isServer n := by
  intro h
  have hval := congrArg (fun id => id.val.toNat) h
  simp only [openedId_toNat] at hval
  have hmod : n % idCount isServer = k % idCount isServer := by omega
  have hzero := Nat.sub_mod_eq_zero_of_mod_eq hmod
  rw [Nat.mod_eq_of_lt hn] at hzero
  exact absurd hzero (Nat.sub_ne_zero_of_lt hk)

theorem openedId_turn {isServer : Bool} {n : Nat} (hn : idCount isServer ≤ n) :
    openedId isServer (n - idCount isServer) = openedId isServer n := by
  rw [openedId, openedId, Nat.mod_eq_sub_mod hn]

/-! ### Incoming streams -/

/-- The frame is a `SYN` for the stream. -/
def Frame.opensStream (id : StreamID) : Frame → Bool
  | .stream id' event => decide (id' = id) && event.carries Flags.syn
  | .session _ => false

namespace YamuxSession

variable {s s' : YamuxSession} {answer : Poll (Option YamuxStream)} {order : List StreamID}

theorem logError_streams (id : StreamID) (result : Except YamuxStreamHeadError Unit) :
    (s.logError id result).streams = s.streams := by
  cases result <;> rfl

/-- Exactly a `SYN` registers a stream. -/
theorem mem_onFrame {frame : Frame} {id : StreamID} :
    id ∈ (s.onFrame frame).2.streams ↔ id ∈ s.streams ∨ frame.opensStream id = true := by
  have hdispatch := s.onFrame_dispatch frame
  revert hdispatch
  generalize (s.onFrame frame).2 = s'
  intro hdispatch
  cases hdispatch with
  | ping | quiet => exact (or_iff_left Bool.false_ne_true).symm
  | @input id' p event hp =>
      have hmem := mem_of_lookup hp
      rw [logError_streams, mem_setStream hmem]
      refine (or_iff_left_of_imp ?_).symm
      intro hopens
      rw [Frame.opensStream, Bool.and_eq_true, decide_eq_true_eq] at hopens
      exact hopens.1 ▸ hmem
  | @accept id' event flags hnone hflags hsyn =>
      rw [logError_streams, insertStream, Finmap.mem_insert, or_comm, Frame.opensStream]
      simp [FrameStreamEvent.carries, hflags, hsyn, eq_comm]
  | @unknown id' event hnone hunknown =>
      refine (or_iff_left ?_).symm
      rw [Frame.opensStream, Bool.and_eq_true, decide_eq_true_eq]
      rintro ⟨-, hcarries⟩
      cases hflags : event.flags with
      | none => simp [FrameStreamEvent.carries, hflags] at hcarries
      | some flags => simp [FrameStreamEvent.carries, hflags, hunknown flags hflags] at hcarries

/-- A `SYN` that registers a stream ends the call. -/
theorem onFrame_registers {frame : Frame} {id : StreamID} (h : (s.onFrame frame).1 = none)
    (hopens : frame.opensStream id = true) : id ∈ s.streams := by
  match frame with
  | .session event => cases hopens
  | .stream id' event =>
      rw [Frame.opensStream, Bool.and_eq_true, decide_eq_true_eq] at hopens
      obtain ⟨rfl, hcarries⟩ := hopens
      rw [← Finmap.lookup_isSome]
      cases hp : s.streams.lookup id' with
      | some p => rfl
      | none =>
          cases hflags : event.flags with
          | none => simp [FrameStreamEvent.carries, hflags] at hcarries
          | some flags =>
              rw [FrameStreamEvent.carries, hflags] at hcarries
              have hsyn : flags.syn = true := hcarries
              simp [onFrame, hp, hflags, hsyn] at h

/-- The streams a loop over inbound frames registers. -/
theorem inboundLoop_ids {fuel : Nat} {answer : Option (Poll (Option YamuxStream))} (hw : s.Wf)
    (h : s.inboundLoop fuel = some (answer, s')) :
    ∃ frames, s'.transport.received = s.transport.received ++ frames ∧
      (∀ id, id ∈ s'.streams ↔ id ∈ s.streams ∨ ∃ f ∈ frames, f.opensStream id = true) ∧
      (answer = none → ∀ id, id ∈ s'.streams → id ∈ s.streams) := by
  induction fuel generalizing s with
  | zero => cases h
  | succ fuel ih =>
      obtain ⟨event, t, pushed, hnext, hreceive⟩ := YamuxTransport.pollNext_spec hw.reader
      have hstep : PollStep s _ := .receive hreceive
      have hreceived := hreceive.received
      rw [inboundLoop, hnext] at h
      rcases event with - | - | e | frame
      · cases h
        exact ⟨[], hreceived, by simp, fun _ _ h => h⟩
      · cases h
        exact ⟨[], hreceived, by simp, fun _ _ h => h⟩
      · cases h
        exact ⟨[], hreceived, by simp, fun _ _ h => h⟩
      · -- a frame has arrived
        have hmem {id : StreamID} :
            id ∈ (YamuxSession.onFrame { s with transport := t } frame).2.streams ↔
              id ∈ s.streams ∨ frame.opensStream id = true := mem_onFrame
        have hnew {id : StreamID}
            (hnone : (YamuxSession.onFrame { s with transport := t } frame).1 = none)
            (hopens : frame.opensStream id = true) : id ∈ s.streams :=
          onFrame_registers (s := { s with transport := t }) hnone hopens
        have htransport := onFrame_transport (s := { s with transport := t }) frame
        have hw₁ := hstep.wf hw
        rw [deliver] at hw₁
        simp only [Option.bind_eq_bind, Option.bind_some] at h
        cases hframe : YamuxSession.onFrame { s with transport := t } frame with
        | mk answer₁ s₁ =>
            rw [hframe] at hmem hnew htransport hw₁
            simp only [hframe] at h
            replace htransport : s₁.transport = t := htransport
            cases answer₁ with
            | some answer₁ =>
                cases h
                refine ⟨[frame], ?_, ?_, fun h => (by cases h)⟩
                · rw [htransport]
                  exact hreceived
                · intro id
                  rw [hmem]
                  simp
            | none =>
                -- the call goes on, so the frame has registered nothing
                obtain ⟨frames, hframes, hids, hnone⟩ := ih hw₁ h
                have hsame {id : StreamID} : id ∈ s₁.streams ↔ id ∈ s.streams :=
                  hmem.trans (or_iff_left_of_imp (hnew rfl))
                refine ⟨frame :: frames, ?_, ?_, ?_⟩
                · rw [hframes, htransport, hreceived, List.append_assoc]
                  rfl
                · intro id
                  rw [hids id, hmem, or_assoc]
                  simp
                · intro h id hid
                  exact hsame.mp (hnone h id hid)

theorem flushSent_frame {sent : Bool} (hw : s.Wf) (h : s.flushSent sent = some (answer, s')) :
    s'.streams = s.streams ∧ s'.transport.received = s.transport.received := by
  cases sent with
  | false =>
      cases h
      exact ⟨rfl, rfl⟩
  | true =>
      obtain ⟨result, t, -, hflush, hsent⟩ := flushSent_spec hw
      rw [hsent] at h
      rcases result with - | e | u <;> cases h <;> exact ⟨rfl, hflush.received⟩

/-- Exactly the streams for which a `SYN` arrives are registered in a call, if
they are not registered already. -/
theorem pollNext_ids (hw : s.Wf) (h : s.pollNext order = some (answer, s')) :
    ∃ frames, s'.transport.received = s.transport.received ++ frames ∧
      ∀ id, id ∉ s.streams → (id ∈ s'.streams ↔ ∃ f ∈ frames, f.opensStream id = true) := by
  cases s.course hw order with
  | closing hsend _ hpoll =>
      obtain ⟨result, t', -, hflush, hclosing⟩ := pollClosing_spec hsend.wf
      have hreceived : t'.received = s.transport.received :=
        hflush.received.trans hsend.run.received
      rw [hpoll, hclosing] at h
      rcases result with - | e | u <;> cases h <;>
        exact ⟨[], by rw [List.append_nil]; exact hreceived, fun id hid => by simpa using hid⟩
  | answered hsend _ hread hpoll =>
      obtain ⟨frames, hframes, hids, -⟩ := inboundLoop_ids hsend.wf hread.loop
      cases hpoll.symm.trans h
      refine ⟨frames, ?_, fun id hid => (hids id).trans (or_iff_right hid)⟩
      exact hframes.trans (congrArg (· ++ frames) hsend.run.received)
  | @drained t t' _ _ _ _ s₂ hsend _ hread hsend' hpoll =>
      obtain ⟨frames, hframes, hids, hnone⟩ := inboundLoop_ids hsend.wf hread.loop
      obtain ⟨hstreams, hsame⟩ := flushSent_frame hsend'.wf (hpoll.symm.trans h)
      refine ⟨frames, ?_, ?_⟩
      · rw [hsame]
        show t'.received = _
        rw [hsend'.run.received, (s₂.drainAll_frame order).1, hframes]
        exact congrArg (· ++ frames) hsend.run.received
      · -- nothing has been registered, and no `SYN` has arrived
        intro id hid
        rw [hstreams]
        refine iff_of_false (fun hmem => hid (hnone rfl id (mem_drainAll hmem))) ?_
        rintro ⟨f, hf, hopens⟩
        exact hid (hnone rfl id ((hids id).mpr (Or.inr ⟨f, hf, hopens⟩)))

end YamuxSession

/-- Polling opens no stream. -/
theorem PollStep.nextStreamId {s s' : YamuxSession} (h : PollStep s s') :
    s'.nextStreamId = s.nextStreamId := by
  cases h with
  | receive hreceive => exact (YamuxSession.receive_inbound hreceive).nextStreamId
  | _ => rfl

theorem PollStep.steps_nextStreamId {s s' : YamuxSession} (h : ReflTransGen PollStep s s') :
    s'.nextStreamId = s.nextStreamId := by
  induction h with
  | refl => rfl
  | tail _ hstep ih => exact hstep.nextStreamId.trans ih

/-! ### Runs -/

/-- The move is a call of `open_stream`. -/
def Move.isOpenStream : Move → Bool
  | .openStream => true
  | _ => false

/-- What `src/SPEC.md` promises: the streams registered for a `SYN` have
identifiers of the other side, and `open_stream` finds its identifier free. -/
def IdsApart (isServer : Bool) (s : YamuxSession) (m : Move) (s' : YamuxSession) : Prop :=
  match m with
  | .openStream => ⟨s.nextStreamId⟩ ∉ s.streams
  | .poll _ _ _ _ => ∀ id ∈ s'.streams, id ∉ s.streams → id.isRemote isServer = true
  | .close _ | .handle _ _ => True

/-- The peer sends no `SYN` for a new stream with an identifier of ours, and
the stream opened one turn of the counter ago is gone. -/
def IdsKept (isServer : Bool) (pre : List Move) (s : YamuxSession) (m : Move)
    (s' : YamuxSession) : Prop :=
  match m with
  | .openStream => idCount isServer ≤ pre.countP Move.isOpenStream →
      openedId isServer (pre.countP Move.isOpenStream - idCount isServer) ∉ s.streams
  | .poll _ _ _ _ => ∀ f ∈ s'.transport.received.drop s.transport.received.length, ∀ id,
      f.opensStream id = true → id ∈ s.streams ∨ id.isRemote isServer = true
  | .close _ | .handle _ _ => True

/-- In the run `moves` the move `m` follows `pre`, and leads from `s` to `s'`. -/
structure Moves (isServer : Bool) (maxWriteBuffer : Nat) (moves pre : List Move) (m : Move)
    (s s' : YamuxSession) : Prop where
  front : pre ++ [m] <+: moves
  before : (YamuxSession.new Io.new isServer maxWriteBuffer).run pre = some s
  possible : m.Possible s
  after : s.move m = some s'

theorem YamuxSession.run_concat {s s' : YamuxSession} {pre : List Move} {m : Move} :
    s.run (pre ++ [m]) = some s' ↔
      ∃ s₁, s.run pre = some s₁ ∧ m.Possible s₁ ∧ s₁.move m = some s' := by
  induction pre generalizing s with
  | nil => simp [YamuxSession.run]
  | cons m₁ pre ih =>
      constructor
      · intro h
        obtain ⟨hpossible₁, s₁, hmove₁, hrest⟩ := YamuxSession.run_cons.mp h
        obtain ⟨s₂, hrun, hpossible, hmove⟩ := ih.mp hrest
        exact ⟨s₂, YamuxSession.run_cons.mpr ⟨hpossible₁, s₁, hmove₁, hrun⟩, hpossible, hmove⟩
      · rintro ⟨s₂, hrun, hpossible, hmove⟩
        obtain ⟨hpossible₁, s₁, hmove₁, hrest⟩ := YamuxSession.run_cons.mp hrun
        exact YamuxSession.run_cons.mpr
          ⟨hpossible₁, s₁, hmove₁, ih.mpr ⟨s₂, hrest, hpossible, hmove⟩⟩

/-- Each call of `open_stream` moves the counter on, and no other move does. -/
theorem YamuxSession.move_nextStreamId {s s' : YamuxSession} {m : Move} {isServer : Bool} {n : Nat}
    (hw : s.Wf) (h : s.nextStreamId = (openedId isServer n).val) (hmove : s.move m = some s') :
    s'.nextStreamId = (openedId isServer (n + if m.isOpenStream then 1 else 0)).val := by
  cases m with
  | openStream =>
      cases hmove
      show (if s.nextStreamId + 2 = 0 then 2 else s.nextStreamId + 2) = _
      rw [h]
      exact openedId_next isServer n
  | close code =>
      cases hmove
      exact h
  | handle ref op =>
      cases hmove
      rw [YamuxSession.handleOp_frame]
      exact h
  | poll writes reads closes order =>
      obtain ⟨⟨answer, s₁⟩, hpoll, rfl⟩ := Option.map_eq_some_iff.mp hmove
      have hw' : (s.behave writes reads closes).Wf := ⟨hw.writer, hw.reader⟩
      obtain ⟨answer', s₂, hpoll', hsteps⟩ := YamuxSession.pollNext_steps hw' order
      cases hpoll.symm.trans hpoll'
      exact (PollStep.steps_nextStreamId hsteps).trans h

/-- After `n` calls of `open_stream`: the counter has moved on as often, and
registered streams are either the peer's or opened by one of these calls. -/
structure IdsInv (isServer : Bool) (n : Nat) (s : YamuxSession) : Prop where
  next : s.nextStreamId = (openedId isServer n).val
  registered : ∀ id ∈ s.streams, id.isRemote isServer = true ∨ ∃ k < n, id = openedId isServer k

namespace IdsInv

variable {isServer : Bool} {n : Nat} {s s' : YamuxSession} {m : Move}

theorem new (isServer : Bool) (maxWriteBuffer : Nat) :
    IdsInv isServer 0 (YamuxSession.new Io.new isServer maxWriteBuffer) := by
  refine ⟨?_, fun id hid => absurd hid (Finmap.notMem_empty)⟩
  cases isServer <;> rfl

/-- The next identifier is free exactly when the stream that had it one turn of
the counter ago is gone. -/
theorem free_iff (h : IdsInv isServer n s) :
    ⟨s.nextStreamId⟩ ∉ s.streams ↔
      (idCount isServer ≤ n → openedId isServer (n - idCount isServer) ∉ s.streams) := by
  have hid : (⟨s.nextStreamId⟩ : StreamID) = openedId isServer n := by rw [h.next]
  rw [hid]
  by_cases hturn : idCount isServer ≤ n
  · rw [openedId_turn hturn]
    exact ⟨fun h _ => h, fun h => h hturn⟩
  · refine iff_of_true ?_ (fun h => absurd h hturn)
    intro hmem
    rcases h.registered _ hmem with hremote | ⟨k, hk, heq⟩
    · rw [openedId_not_remote] at hremote
      cases hremote
    · exact openedId_ne hk ((Nat.sub_le n k).trans_lt (Nat.lt_of_not_le hturn)) heq.symm

/-- A move keeps the identifiers apart exactly when the peer and the counter
keep to the rules. -/
theorem apart_iff {pre : List Move} (h : IdsInv isServer (pre.countP Move.isOpenStream) s)
    (hw : s.Wf) (hmove : s.move m = some s') :
    IdsApart isServer s m s' ↔ IdsKept isServer pre s m s' := by
  cases m with
  | openStream => exact h.free_iff
  | close | handle => exact Iff.rfl
  | poll writes reads closes order =>
      obtain ⟨⟨answer, s₁⟩, hpoll, rfl⟩ := Option.map_eq_some_iff.mp hmove
      have hw' : (s.behave writes reads closes).Wf := ⟨hw.writer, hw.reader⟩
      obtain ⟨frames, hframes, hids⟩ := YamuxSession.pollNext_ids hw' hpoll
      have hnew : s₁.transport.received.drop s.transport.received.length = frames := by
        rw [hframes]
        exact List.drop_left
      rw [IdsApart, IdsKept, hnew]
      constructor
      · intro hapart f hf id hopens
        by_cases hid : id ∈ s.streams
        · exact Or.inl hid
        · exact Or.inr (hapart id ((hids id hid).mpr ⟨f, hf, hopens⟩) hid)
      · intro hkept id hmem hid
        obtain ⟨f, hf, hopens⟩ := (hids id hid).mp hmem
        exact (hkept f hf id hopens).resolve_left hid

/-- The invariant is kept while the identifiers are kept apart. -/
theorem move (h : IdsInv isServer n s) (hw : s.Wf) (hmove : s.move m = some s')
    (hapart : IdsApart isServer s m s') :
    IdsInv isServer (n + if m.isOpenStream then 1 else 0) s' := by
  refine ⟨YamuxSession.move_nextStreamId hw h.next hmove, ?_⟩
  intro id hid
  cases m with
  | openStream =>
      cases hmove
      -- the new stream has the identifier of this call
      rcases Finmap.mem_insert.mp hid with rfl | hid
      · exact Or.inr ⟨n, Nat.lt_succ_self n, by rw [h.next]⟩
      · apply (h.registered id hid).imp_right
        rintro ⟨k, hk, heq⟩
        exact ⟨k, Nat.lt_succ_of_lt hk, heq⟩
  | close code =>
      cases hmove
      exact h.registered id hid
  | handle ref op =>
      cases hmove
      exact h.registered id ((YamuxSession.mem_handleOp ref op).mp hid)
  | poll writes reads closes order =>
      by_cases hold : id ∈ s.streams
      · exact h.registered id hold
      · exact Or.inl (hapart id hid hold)

end IdsInv

section Runs

variable (isServer : Bool) (maxWriteBuffer : Nat) (moves : List Move)

/-- The invariant of a run in which every move keeps the identifiers apart, as
far as the run has kept the invariant. -/
theorem idsInv_of_run
    (hapart : ∀ pre m s s', Moves isServer maxWriteBuffer moves pre m s s' →
      IdsInv isServer (pre.countP Move.isOpenStream) s → IdsApart isServer s m s')
    {pre : List Move} {s : YamuxSession} (hfront : pre <+: moves)
    (hrun : (YamuxSession.new Io.new isServer maxWriteBuffer).run pre = some s) :
    IdsInv isServer (pre.countP Move.isOpenStream) s := by
  induction pre using List.reverseRecOn generalizing s with
  | nil =>
      cases hrun
      exact IdsInv.new isServer maxWriteBuffer
  | append_singleton pre m ih =>
      obtain ⟨s₁, hrun₁, hpossible, hmove⟩ := YamuxSession.run_concat.mp hrun
      have hinv := ih ((List.prefix_append _ _).trans hfront) hrun₁
      have hw := (sessionMachine_reachable (reachable_of_run (.init rfl) hrun₁)).wf
      rw [List.countP_append, List.countP_singleton]
      exact hinv.move hw hmove (hapart pre m s₁ s ⟨hfront, hrun₁, hpossible, hmove⟩ hinv)

/-- In every run of a session: incoming streams have identifiers of the other
side and `open_stream` always finds its identifier free, exactly when the peer
sends no `SYN` for a new stream with an identifier of ours, and every stream is
gone when the counter comes round to it again. -/
theorem stream_ids_iff :
    (∀ pre m s s', Moves isServer maxWriteBuffer moves pre m s s' → IdsApart isServer s m s') ↔
      ∀ pre m s s', Moves isServer maxWriteBuffer moves pre m s s' →
        IdsKept isServer pre s m s' := by
  have hwf : ∀ {pre s}, (YamuxSession.new Io.new isServer maxWriteBuffer).run pre = some s →
      s.Wf :=
    fun hrun => (sessionMachine_reachable (reachable_of_run (.init rfl) hrun)).wf
  constructor
  · intro hapart pre m s s' h
    have hinv := idsInv_of_run isServer maxWriteBuffer moves
      (fun pre m s s' h _ => hapart pre m s s' h) ((List.prefix_append _ _).trans h.front) h.before
    exact (hinv.apart_iff (hwf h.before) h.after).mp (hapart pre m s s' h)
  · intro hkept pre m s s' h
    have hinv := idsInv_of_run isServer maxWriteBuffer moves
      (fun pre m s s' h hinv => (hinv.apart_iff (hwf h.before) h.after).mpr (hkept pre m s s' h))
      ((List.prefix_append _ _).trans h.front) h.before
    exact (hinv.apart_iff (hwf h.before) h.after).mpr (hkept pre m s s' h)

end Runs

/-- The peer of a client sends a window update with `SYN` for stream 1. -/
def synOne : Move := .poll [] [.ready (.ok [0, 1, 0, 1, 0, 0, 0, 1, 0, 0, 0, 0])] [] []

/-- The client accepts the stream, and its own first stream has the same
identifier. -/
theorem ids_collide :
    ¬ ∀ isServer maxWriteBuffer moves pre m s s',
      Moves isServer maxWriteBuffer moves pre m s s' → IdsApart isServer s m s' := by
  intro h
  have hrun : ((YamuxSession.new Io.new false 0).run [synOne]).map
      (fun s => (s.streams.lookup ⟨s.nextStreamId⟩).isSome) = some true := by decide +kernel
  obtain ⟨s, hs, htaken⟩ := Option.map_eq_some_iff.mp hrun
  have hfree := h false 0 [synOne, .openStream] [synOne] .openStream s s.openStream
    ⟨List.prefix_refl _, hs, trivial, rfl⟩
  exact hfree (Finmap.lookup_isSome.mp htaken)

end YamuxLowMem
