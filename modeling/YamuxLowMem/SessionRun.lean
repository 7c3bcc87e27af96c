/-
YamuxLowMem/SessionRun.lean

The runs of a session, and what holds of its streams in all of them.

A run interleaves the calls of the application: `open_stream`, `close`, the
use of handles, and `poll_next` with any answers of the I/O object and any
order of the streams map.  Underneath, a call of `poll_next` is a sequence of
`PollStep`s, so an invariant is proved for the finer `stepMachine`.  A guard
restricts what the application, or the I/O object, may do.
-/
import YamuxLowMem.PairBytes
import YamuxLowMem.SessionSteps

namespace YamuxLowMem

open Async Relation

/-! ### Runs -/

/-- What can happen to a session. -/
inductive Move where
  | openStream
  | close (code : UInt32)
  | handle (ref : HandleRef) (op : HandleOp)
  /-- the I/O object answers as listed, and the streams come in this order -/
  | poll (writes : List (Poll (Except IoError Nat))) (reads : List (Poll (Except IoError Bytes)))
      (closes : List (Poll (Except IoError Unit))) (order : List StreamID)

/-- The streams map can be iterated in this order. -/
def IsOrder (s : YamuxSession) (order : List StreamID) : Prop :=
  order.Nodup ∧ order.toFinset = s.streams.keys

instance (s : YamuxSession) (order : List StreamID) : Decidable (IsOrder s order) :=
  inferInstanceAs (Decidable (_ ∧ _))

/-- Only a poll depends on the state: it comes with an order of the streams. -/
def Move.Possible (s : YamuxSession) : Move → Prop
  | .poll _ _ _ order => IsOrder s order
  | _ => True

def YamuxSession.move (s : YamuxSession) : Move → Option YamuxSession
  | .openStream => some s.openStream
  | .close code => some (s.close code)
  | .handle ref op => some (s.handleOp ref op)
  | .poll writes reads closes order =>
      ((s.behave writes reads closes).pollNext order).map Prod.snd

abbrev Guard := YamuxSession → Move → Prop

/-- A session from its creation on. -/
def sessionMachine (isServer : Bool) (maxWriteBuffer : Nat) (guard : Guard) :
    Run.Machine YamuxSession where
  init s := s = YamuxSession.new Io.new isServer maxWriteBuffer
  step s s' := ∃ m : Move, m.Possible s ∧ guard s m ∧ s.move m = some s'

/-- No restrictions. -/
def anything : Guard := fun _ _ => True

instance (s : YamuxSession) (m : Move) : Decidable (m.Possible s) :=
  match m with
  | .poll _ _ _ order => inferInstanceAs (Decidable (IsOrder s order))
  | .openStream | .close _ | .handle _ _ => isTrue trivial

/-- A run, move by move. -/
def YamuxSession.run (s : YamuxSession) : List Move → Option YamuxSession
  | [] => some s
  | m :: moves => if m.Possible s then (s.move m).bind (·.run moves) else none

theorem YamuxSession.run_cons {s s' : YamuxSession} {m : Move} {moves : List Move} :
    s.run (m :: moves) = some s' ↔
      m.Possible s ∧ ∃ s₁, s.move m = some s₁ ∧ s₁.run moves = some s' := by
  rw [YamuxSession.run]
  split
  · rename_i hpossible
    rw [Option.bind_eq_some_iff]
    exact (and_iff_right hpossible).symm
  · rename_i hnot
    exact iff_of_false (by simp) fun h => hnot h.1

/-- The guard admits every move of the run. -/
def YamuxSession.Guarded (guard : Guard) (s : YamuxSession) : List Move → Prop
  | [] => True
  | m :: moves => guard s m ∧ ∀ s' ∈ s.move m, s'.Guarded guard moves

instance YamuxSession.decidableGuarded (guard : Guard) [∀ s m, Decidable (guard s m)] :
    ∀ (s : YamuxSession) (moves : List Move), Decidable (s.Guarded guard moves)
  | _, [] => isTrue trivial
  | s, m :: moves =>
      have : ∀ s', Decidable (YamuxSession.Guarded guard s' moves) :=
        fun s' => decidableGuarded guard s' moves
      inferInstanceAs (Decidable (guard s m ∧ ∀ s' ∈ s.move m, s'.Guarded guard moves))

theorem reachable_of_guarded {isServer : Bool} {maxWriteBuffer : Nat} {guard : Guard}
    {s s' : YamuxSession} {moves : List Move}
    (hs : (sessionMachine isServer maxWriteBuffer guard).Reachable s)
    (hguarded : s.Guarded guard moves) (hrun : s.run moves = some s') :
    (sessionMachine isServer maxWriteBuffer guard).Reachable s' := by
  induction moves generalizing s with
  | nil =>
      obtain rfl := Option.some.inj hrun
      exact hs
  | cons m moves ih =>
      obtain ⟨hpossible, s₁, hmove, hrest⟩ := YamuxSession.run_cons.mp hrun
      exact ih (hs.step ⟨m, hpossible, hguarded.1, hmove⟩) (hguarded.2 s₁ hmove) hrest

theorem guarded_anything (s : YamuxSession) (moves : List Move) : s.Guarded anything moves := by
  induction moves generalizing s with
  | nil => trivial
  | cons m moves ih => exact ⟨trivial, fun s' _ => ih s'⟩

theorem reachable_of_run {isServer : Bool} {maxWriteBuffer : Nat} {s s' : YamuxSession}
    {moves : List Move} (hs : (sessionMachine isServer maxWriteBuffer anything).Reachable s)
    (hrun : s.run moves = some s') :
    (sessionMachine isServer maxWriteBuffer anything).Reachable s' :=
  reachable_of_guarded hs (guarded_anything s moves) hrun

/-- A state with the property `p`, found by a run. -/
theorem exists_of_run (isServer : Bool) (maxWriteBuffer : Nat) (moves : List Move)
    {p : YamuxSession → Bool}
    (h : ((YamuxSession.new Io.new isServer maxWriteBuffer).run moves).map p = some true) :
    ∃ s, (sessionMachine isServer maxWriteBuffer anything).Reachable s ∧ p s = true := by
  obtain ⟨s, hrun, hp⟩ := Option.map_eq_some_iff.mp h
  exact ⟨s, reachable_of_run (.init rfl) hrun, hp⟩

/-- The same for a run that the guard admits. -/
theorem exists_of_guarded (isServer : Bool) (maxWriteBuffer : Nat) (guard : Guard)
    (moves : List Move) {p : YamuxSession → Bool}
    (hguarded : (YamuxSession.new Io.new isServer maxWriteBuffer).Guarded guard moves)
    (h : ((YamuxSession.new Io.new isServer maxWriteBuffer).run moves).map p = some true) :
    ∃ s, (sessionMachine isServer maxWriteBuffer guard).Reachable s ∧ p s = true := by
  obtain ⟨s, hrun, hp⟩ := Option.map_eq_some_iff.mp h
  exact ⟨s, reachable_of_guarded (.init rfl) hguarded hrun, hp⟩

/-- A state found by a run, from which a call of `poll_next` gives the answer
and leaves a state with the property `p`. -/
theorem exists_poll_of_run (isServer : Bool) (maxWriteBuffer : Nat) (moves : List Move)
    (f : YamuxSession → YamuxSession) (order : List StreamID)
    (answer : Poll (Option YamuxStream)) {p : YamuxSession → Bool}
    (h : ((YamuxSession.new Io.new isServer maxWriteBuffer).run moves).map (fun s =>
      decide (IsOrder (f s) order) && ((f s).pollNext order).any fun r =>
        decide (r.1 = answer) && p r.2) = some true) :
    ∃ s s', (sessionMachine isServer maxWriteBuffer anything).Reachable s ∧ IsOrder (f s) order ∧
      (f s).pollNext order = some (answer, s') ∧ p s' = true := by
  obtain ⟨s, hreach, hs⟩ := exists_of_run isServer maxWriteBuffer moves h
  rw [Bool.and_eq_true, Option.any_eq_true] at hs
  obtain ⟨horder, ⟨answer', s'⟩, hpoll, hr⟩ := hs
  rw [Bool.and_eq_true] at hr
  obtain rfl : answer' = answer := of_decide_eq_true hr.1
  exact ⟨s, s', hreach, of_decide_eq_true horder, hpoll, hr.2⟩

/-- The steps a run is made of. -/
inductive SessionStep (guard : Guard) : YamuxSession → YamuxSession → Prop where
  | openStream {s : YamuxSession} : guard s .openStream → SessionStep guard s s.openStream
  | close {s : YamuxSession} (code : UInt32) : guard s (.close code) →
      SessionStep guard s (s.close code)
  | handle {s : YamuxSession} (ref : HandleRef) (op : HandleOp) : guard s (.handle ref op) →
      SessionStep guard s (s.handleOp ref op)
  | behave {s : YamuxSession} (writes : List (Poll (Except IoError Nat)))
      (reads : List (Poll (Except IoError Bytes))) (closes : List (Poll (Except IoError Unit)))
      (order : List StreamID) : guard s (.poll writes reads closes order) →
      SessionStep guard s (s.behave writes reads closes)
  | poll {s s' : YamuxSession} : PollStep s s' → SessionStep guard s s'

def stepMachine (isServer : Bool) (maxWriteBuffer : Nat) (guard : Guard) :
    Run.Machine YamuxSession where
  init s := s = YamuxSession.new Io.new isServer maxWriteBuffer
  step := SessionStep guard

abbrev SessionReachable (isServer : Bool) (maxWriteBuffer : Nat) (guard : Guard) :
    YamuxSession → Prop :=
  (stepMachine isServer maxWriteBuffer guard).Reachable

section Runs

variable {isServer : Bool} {maxWriteBuffer : Nat} {guard : Guard} {s s' : YamuxSession}

namespace YamuxSession

theorem mem_of_lookup {id : StreamID} {p : StreamPair} (h : s.streams.lookup id = some p) :
    id ∈ s.streams := Finmap.lookup_isSome.mp (h ▸ rfl)

theorem mem_setStream {id id' : StreamID} {p : StreamPair} (h : id' ∈ s.streams) :
    id ∈ (s.setStream id' p).streams ↔ id ∈ s.streams := by
  rw [setStream, Finmap.mem_insert]
  exact or_iff_right_of_imp fun heq => heq ▸ h

theorem mem_handleOp {id : StreamID} (ref : HandleRef) (op : HandleOp) :
    id ∈ (s.handleOp ref op).streams ↔ id ∈ s.streams := by
  cases ref with
  | registered id' =>
      simp only [handleOp]
      split
      · rename_i p hlookup
        exact mem_setStream (mem_of_lookup hlookup)
      · exact Iff.rfl
  | dropped index => exact Iff.rfl

/-- Using a handle changes pairs and nothing else. -/
theorem handleOp_frame (ref : HandleRef) (op : HandleOp) : s.handleOp ref op = { s with
    streams := (s.handleOp ref op).streams
    dropped := (s.handleOp ref op).dropped } := by
  cases ref with
  | registered id =>
      simp only [handleOp]
      split <;> rfl
  | dropped index => rfl

end YamuxSession

theorem handleOp_transport (ref : HandleRef) (op : HandleOp) :
    (s.handleOp ref op).transport = s.transport := by
  rw [YamuxSession.handleOp_frame]

theorem SessionStep.wf (h : SessionStep guard s s') (hw : s.Wf) : s'.Wf := by
  cases h with
  | openStream | close | behave => exact ⟨hw.writer, hw.reader⟩
  | handle ref op =>
      have htransport := handleOp_transport (s := s) ref op
      exact ⟨by rw [htransport]; exact hw.writer, by rw [htransport]; exact hw.reader⟩
  | poll hpoll => exact hpoll.wf hw

theorem SessionReachable.wf (h : SessionReachable isServer maxWriteBuffer guard s) : s.Wf := by
  refine h.invariant ?_ ?_
  · rintro s rfl
    exact YamuxSession.wf_new _ _ _
  · intro s s' hw hstep
    exact hstep.wf hw

/-- What one move of a run does, in steps. -/
theorem YamuxSession.move_steps {m : Move} (hw : s.Wf) (hguard : guard s m)
    (hmove : s.move m = some s') : (stepMachine isServer maxWriteBuffer guard).Steps s s' := by
  cases m with
  | openStream =>
      obtain rfl := Option.some.inj hmove
      exact .single (.openStream hguard)
  | close code =>
      obtain rfl := Option.some.inj hmove
      exact .single (.close code hguard)
  | handle ref op =>
      obtain rfl := Option.some.inj hmove
      exact .single (.handle ref op hguard)
  | poll writes reads closes order =>
      have hw' : (s.behave writes reads closes).Wf := ⟨hw.writer, hw.reader⟩
      obtain ⟨answer, s₁, hpoll, hsteps⟩ := pollNext_steps hw' order
      rw [YamuxSession.move, hpoll] at hmove
      obtain rfl := Option.some.inj hmove
      apply ReflTransGen.head (.behave writes reads closes order hguard)
      exact ReflTransGen.mono (fun _ _ h => SessionStep.poll h) _ _ hsteps

theorem sessionMachine_reachable (h : (sessionMachine isServer maxWriteBuffer guard).Reachable s) :
    SessionReachable isServer maxWriteBuffer guard s := by
  induction h with
  | init h => exact .init h
  | step _ hstep ih =>
      obtain ⟨m, -, hguard, hmove⟩ := hstep
      exact Run.Machine.Reachable.steps ih (YamuxSession.move_steps ih.wf hguard hmove)

end Runs

/-- The states inside a call of `poll_next` count as reached. -/
theorem SessionReachable.pollSteps {isServer : Bool} {maxWriteBuffer : Nat} {guard : Guard}
    {s s' : YamuxSession} (h : SessionReachable isServer maxWriteBuffer guard s)
    (hsteps : ReflTransGen PollStep s s') :
    SessionReachable isServer maxWriteBuffer guard s' :=
  Run.Machine.Reachable.steps h (ReflTransGen.mono (fun _ _ h => SessionStep.poll h) _ _ hsteps)

/-! ### What receiving a frame does -/

/-- What the session does with one inbound frame. -/
inductive Dispatch (s : YamuxSession) : Frame → YamuxSession → Prop where
  | ping {flags : Flags} (code : UInt32) : flags.syn = true →
      Dispatch s (.session (.ping flags code))
        { s with outQueue := s.outQueue ++ [.session (.ping Flags.onlyAck code)] }
  | quiet (event : FrameSessionEvent) : Dispatch s (.session event) s
  | input {id : StreamID} {p : StreamPair} (event : FrameStreamEvent) :
      s.streams.lookup id = some p →
      Dispatch s (.stream id event)
        ((s.setStream id (p.onInput event).2).logError id (p.onInput event).1)
  | accept {id : StreamID} {event : FrameStreamEvent} {flags : Flags} :
      s.streams.lookup id = none → event.flags = some flags → flags.syn = true →
      Dispatch s (.stream id event)
        ((s.insertStream id ((StreamPair.acceptStream id).onInput event).2).logError id
          ((StreamPair.acceptStream id).onInput event).1)
  | unknown {id : StreamID} {event : FrameStreamEvent} :
      s.streams.lookup id = none → (∀ flags, event.flags = some flags → flags.syn = false) →
      Dispatch s (.stream id event) s

theorem YamuxSession.onFrame_dispatch (s : YamuxSession) (frame : Frame) :
    Dispatch s frame (s.onFrame frame).2 := by
  match frame with
  | .session (.goAway code) => exact .quiet _
  | .session (.ping flags code) =>
      cases hsyn : flags.syn with
      | true =>
          simp only [onFrame, hsyn, if_true]
          exact .ping code hsyn
      | false =>
          simp only [onFrame, hsyn]
          exact .quiet _
  | .stream id event =>
      cases hp : s.streams.lookup id with
      | some p =>
          simp only [onFrame, hp]
          exact .input event hp
      | none =>
          cases hf : event.flags with
          | none =>
              simp only [onFrame, hp, hf]
              exact .unknown hp fun flags h => by rw [hf] at h; cases h
          | some flags =>
              cases hsyn : flags.syn with
              | true =>
                  simp only [onFrame, hp, hf, hsyn, if_true]
                  exact .accept hp hf hsyn
              | false =>
                  simp only [onFrame, hp, hf, hsyn]
                  refine .unknown hp fun flags' h => ?_
                  obtain rfl := Option.some.inj (hf.symm.trans h)
                  exact hsyn

/-! ### Facts about all streams of a session -/

/-- `R` holds of every registered stream and `D` of every stream whose head
has been dropped. -/
structure Pairs (R : StreamID → StreamPair → Prop) (D : StreamPair → Prop) (s : YamuxSession) :
    Prop where
  registered : ∀ id p, s.streams.lookup id = some p → R id p
  dropped : ∀ p ∈ s.dropped, D p

namespace Pairs

variable {R R' : StreamID → StreamPair → Prop} {D D' : StreamPair → Prop} {s s' : YamuxSession}
  {id : StreamID} {p : StreamPair}

theorem congr (h : Pairs R D s) (hstreams : s'.streams = s.streams)
    (hdropped : s'.dropped = s.dropped) : Pairs R D s' := by
  refine ⟨?_, ?_⟩
  · rw [hstreams]
    exact h.registered
  · rw [hdropped]
    exact h.dropped

theorem setStream (h : Pairs R D s) (hp : R id p) : Pairs R D (s.setStream id p) := by
  refine ⟨fun id' q hq => ?_, h.dropped⟩
  by_cases hid : id' = id
  · subst hid
    rw [YamuxSession.setStream, Finmap.lookup_insert] at hq
    obtain rfl := Option.some.inj hq
    exact hp
  · rw [YamuxSession.setStream, Finmap.lookup_insert_of_ne _ hid] at hq
    exact h.registered id' q hq

/-- The pair registered under `id`, if any, loses its head. -/
theorem dropHead (h : Pairs R D s) (hdrop : ∀ id p, R id p → D p.dropHead) (id : StreamID) :
    ∀ q ∈ (match s.streams.lookup id with
      | some old => s.dropped ++ [old.dropHead]
      | none => s.dropped), D q := by
  intro q hq
  cases hp : s.streams.lookup id with
  | none =>
      rw [hp] at hq
      exact h.dropped q hq
  | some old =>
      rw [hp] at hq
      rcases List.mem_append.mp hq with hq | hq
      · exact h.dropped q hq
      · rw [List.mem_singleton.mp hq]
        exact hdrop id old (h.registered id old hp)

theorem insertStream (h : Pairs R D s) (hdrop : ∀ id p, R id p → D p.dropHead) (hp : R id p) :
    Pairs R D (s.insertStream id p) :=
  ⟨(h.setStream hp).registered, h.dropHead hdrop id⟩

theorem removeStream (h : Pairs R D s) (hdrop : ∀ id p, R id p → D p.dropHead) (id : StreamID) :
    Pairs R D (s.removeStream id) := by
  refine ⟨fun id' q hq => ?_, h.dropHead hdrop id⟩
  by_cases hid : id' = id
  · subst hid
    rw [YamuxSession.removeStream, Finmap.lookup_erase] at hq
    cases hq
  · rw [YamuxSession.removeStream, Finmap.lookup_erase_ne hid] at hq
    exact h.registered id' q hq

theorem mono (h : Pairs R D s) (hR : ∀ id p, s.streams.lookup id = some p → R id p → R' id p)
    (hD : ∀ p ∈ s.dropped, D p → D' p) : Pairs R' D' s :=
  ⟨fun id p hp => hR id p hp (h.registered id p hp), fun p hp => hD p hp (h.dropped p hp)⟩

theorem logError (h : Pairs R D s) (result : Except YamuxStreamHeadError Unit) :
    Pairs R D (s.logError id result) := by
  cases result with
  | ok => exact h
  | error e => exact h.congr rfl rfl

theorem handleOp (h : Pairs R D s) (ref : HandleRef) (op : HandleOp)
    (hR : ∀ id p, R id p → R id (p.handleOp op)) (hD : ∀ p, D p → D (p.handleOp op)) :
    Pairs R D (s.handleOp ref op) := by
  cases ref with
  | registered id =>
      simp only [YamuxSession.handleOp]
      cases hp : s.streams.lookup id with
      | none => exact h
      | some p => exact h.setStream (hR id p (h.registered id p hp))
  | dropped index =>
      refine ⟨h.registered, fun p hp => ?_⟩
      rw [YamuxSession.handleOp, List.mem_iff_getElem?] at hp
      obtain ⟨i, hi⟩ := hp
      rw [List.getElem?_modify] at hi
      cases hget : s.dropped[i]? with
      | none =>
          rw [hget] at hi
          cases hi
      | some q =>
          have hq : D q := h.dropped q (List.mem_of_getElem? hget)
          rw [hget] at hi
          obtain rfl := Option.some.inj hi
          split
          · exact hD q hq
          · exact hq

end Pairs

/-! ### Every stream is a reachable pair -/

/-- A stream whose head is in use.  Between polls its head has nothing but
window updates to yield. -/
structure Live (id : StreamID) (p : StreamPair) : Prop where
  reach : ∃ opened, PairReachable opened id p
  alive : p.headAlive
  outs : Blocks p.head.outs
  control : payloadOf p.head.outs = []

/-- A stream, in use or not. -/
def Known (p : StreamPair) : Prop := ∃ opened id, PairReachable opened id p

namespace Live

variable {id : StreamID} {p : StreamPair}

theorem create (opened : Bool) (id : StreamID) : Live id (StreamPair.create opened id) := by
  refine ⟨⟨opened, .init rfl⟩, ?_, ?_, ?_⟩
  · cases opened <;> rfl
  · cases opened <;> exact .control _ _ .nil
  · cases opened <;> rfl

theorem dropHead (h : Live id p) : Known p.dropHead := by
  obtain ⟨opened, hreach⟩ := h.reach
  exact ⟨opened, id, hreach.step .dropHead⟩

theorem onInput (h : Live id p) (event : FrameStreamEvent) : Live id (p.onInput event).2 := by
  obtain ⟨opened, hreach⟩ := h.reach
  cases hin : p.onInput event with
  | mk result q =>
      cases result with
      | error e =>
          rw [StreamPair.onInput_error hin]
          exact h
      | ok =>
          have hstep := (StreamPair.onInput_ok h.alive hin).1
          obtain ⟨new, hnew, hblocks, -⟩ := hreach.grows (.single hstep)
          have hemitted : q.emitted = p.emitted := by
            have hemitted := p.onInput_emitted event
            rwa [hin] at hemitted
          have houts : q.head.outs = p.head.outs ++ new := by
            rw [StreamPair.history, StreamPair.history, hemitted, List.append_assoc] at hnew
            exact List.append_cancel_left hnew
          have halive : q.headAlive := by
            have halive := StreamPair.onInput_headAlive (p := p) event
            rw [hin] at halive
            exact halive.trans h.alive
          have hreach' : PairReachable opened id q := hreach.step hstep
          refine ⟨⟨opened, hreach'⟩, halive, ?_, ?_⟩
          · show Blocks q.head.outs
            rw [houts]
            exact h.outs.append hblocks
          · -- what was written is neither more nor further on its way
            have hup : q.up = p.up ∧ q.handle = p.handle := by
              have hup : (p.onInput event).2.up = p.up ∧ (p.onInput event).2.handle = p.handle :=
                ⟨rfl, rfl⟩
              rwa [hin] at hup
            have hall := hreach'.writtenInv.all halive
            rw [hup.1, hup.2, hnew, ← hreach.writtenInv.all h.alive, payloadOf_append,
              List.append_assoc, List.append_cancel_left_eq, List.append_left_eq_self] at hall
            show payloadOf q.head.outs = []
            rw [houts, payloadOf_append, h.control, hall]
            rfl

theorem handleOp (h : Live id p) (op : HandleOp) : Live id (p.handleOp op) := by
  obtain ⟨opened, hreach⟩ := h.reach
  refine ⟨⟨opened, hreach.steps (StreamPair.handleOp_steps op)⟩, ?_, ?_, ?_⟩
  · rw [StreamPair.handleOp_headAlive]
    exact h.alive
  · rw [(p.handleOp_frame op).1]
    exact h.outs
  · rw [(p.handleOp_frame op).1]
    exact h.control

/-- Draining a live head yields whole blocks. -/
theorem drained (h : Live id p) {events : List FrameStreamEvent} {closed : Bool} {q : StreamPair}
    (hq : Drained p events closed q) : Live id q ∧ Blocks events := by
  obtain ⟨opened, hreach⟩ := h.reach
  obtain ⟨new, hnew, hblocks, -⟩ := hreach.grows hq.steps
  have hevents : events = p.head.outs ++ new := by
    rw [StreamPair.history, StreamPair.history, hq.emitted, hq.outs, List.append_nil,
      List.append_assoc] at hnew
    exact List.append_cancel_left hnew
  refine ⟨⟨⟨opened, hreach.steps hq.steps⟩, ?_, ?_, ?_⟩, ?_⟩
  · rw [hq.alive]
    exact h.alive
  · rw [hq.outs]
    exact .nil
  · rw [hq.outs]
    rfl
  · rw [hevents]
    exact h.outs.append hblocks

theorem drain (h : Live id p) :
    Drained p (YamuxSession.drainHead (YamuxSession.drainWork p) p).1
      (YamuxSession.drainHead (YamuxSession.drainWork p) p).2.1
      (YamuxSession.drainHead (YamuxSession.drainWork p) p).2.2 := by
  apply drainHead_spec _ h.alive
  have hbool : p.head.state.localOpen.toNat ≤ 1 := Bool.toNat_le _
  rw [StreamPair.work, YamuxSession.drainWork]
  omega

end Live

theorem Known.handleOp {p : StreamPair} (h : Known p) (op : HandleOp) : Known (p.handleOp op) := by
  obtain ⟨opened, id, hreach⟩ := h
  exact ⟨opened, id, hreach.steps (StreamPair.handleOp_steps op)⟩

abbrev PairsOk : YamuxSession → Prop := Pairs Live Known

theorem Dispatch.pairsOk {s s' : YamuxSession} {frame : Frame} (h : Dispatch s frame s')
    (hs : PairsOk s) : PairsOk s' := by
  cases h with
  | ping | quiet | unknown => exact hs.congr rfl rfl
  | input event hp => exact (hs.setStream ((hs.registered _ _ hp).onInput event)).logError _
  | accept =>
      exact (hs.insertStream (fun _ _ => Live.dropHead)
        ((Live.create false _).onInput _)).logError _

theorem PollStep.pairsOk {s s' : YamuxSession} (h : PollStep s s') (hs : PairsOk s) :
    PairsOk s' := by
  cases h with
  | flush | send | closeIo => exact hs.congr rfl rfl
  | receive =>
      rename_i t event pushed hreceive
      have ht : PairsOk { s with transport := t } := hs.congr rfl rfl
      unfold YamuxSession.deliver
      split
      · exact (YamuxSession.onFrame_dispatch _ _).pairsOk ht
      · exact ht
  | @drain id p hp =>
      have hlive := hs.registered id p hp
      exact (hs.setStream (hlive.drained hlive.drain).1).congr rfl rfl
  | remove id => exact hs.removeStream (fun _ _ => Live.dropHead) id

theorem SessionStep.pairsOk {guard : Guard} {s s' : YamuxSession} (h : SessionStep guard s s')
    (hs : PairsOk s) : PairsOk s' := by
  cases h with
  | openStream =>
      have hs' : PairsOk { s with
          nextStreamId := if s.nextStreamId + 2 = 0 then 2 else s.nextStreamId + 2 } :=
        hs.congr rfl rfl
      exact hs'.insertStream (fun _ _ => Live.dropHead) (Live.create true ⟨s.nextStreamId⟩)
  | close | behave => exact hs.congr rfl rfl
  | handle ref op => exact hs.handleOp ref op (fun _ _ h => h.handleOp op) fun _ h => h.handleOp op
  | poll hpoll => exact hpoll.pairsOk hs

theorem SessionReachable.pairsOk {isServer : Bool} {maxWriteBuffer : Nat} {guard : Guard}
    {s : YamuxSession} (h : SessionReachable isServer maxWriteBuffer guard s) : PairsOk s := by
  refine h.invariant ?_ ?_
  · rintro s rfl
    exact ⟨fun id p hp => (by cases hp), fun p hp => (by cases hp)⟩
  · intro s s' hs hstep
    exact hstep.pairsOk hs

end YamuxLowMem
