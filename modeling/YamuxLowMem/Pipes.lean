/-
YamuxLowMem/Pipes.lean

A client and a server provide reliable pipes.

For each id and each direction there is a pipe: what the handle at one end has
written, whether it has been closed, what the handle at the other end has read,
and whether a read there has reported the end.  Frames, windows, buffers and
polls are not part of this picture, and every step of the two sessions is a
step of one of the pipes, or leaves all of them as they are.

Only the use of a handle moves a pipe.  That it moves it in a way a pipe can
move is what the chain of places between the two handles is for.
-/
import YamuxLowMem.Lib.Pipe
import YamuxLowMem.Lib.Refinement
import YamuxLowMem.EndToEnd
import YamuxLowMem.StreamAccounts

namespace YamuxLowMem

open Async Relation

/-! ### What a handle shows of a stream -/

/-- The end of the pipe that a handle writes to, and that of the pipe it reads
from. -/
structure HandleEnds where
  written : Bytes
  closed : Bool
  read : Bytes
  ended : Bool
  deriving DecidableEq

/-- A stream that has not been used. -/
def HandleEnds.new : HandleEnds := { written := [], closed := false, read := [], ended := false }

def StreamPair.ends (p : StreamPair) : HandleEnds :=
  { written := p.handle.written
    closed := !p.up.senderOpen
    read := p.handle.read
    ended := p.eof }

/-- What the use of a handle does. -/
inductive HandleEnds.Step (e : HandleEnds) : HandleEnds → Prop where
  | none : Step e e
  | write (buf : Bytes) : e.closed = false → Step e { e with written := e.written ++ buf }
  | close : Step e { e with closed := true }
  | read (buf : Bytes) : Step e { e with read := e.read ++ buf }
  | finish : Step e { e with ended := true }

namespace StreamPair

variable {p : StreamPair}

theorem pollWrite_ends (p : StreamPair) (buf : Bytes) : p.ends.Step (p.pollWrite buf).2.ends := by
  simp only [pollWrite, YamuxStream.pollWrite]
  split
  · exact .none
  · exact .none
  · simp only [Channel.startSend]
    split_ifs with hopen
    · -- only a sender that has not been closed gets this far
      rw [Bool.and_eq_true] at hopen
      apply HandleEnds.Step.write
      rw [ends, hopen.1]
      rfl
    · exact .none
    · exact .none

/-- What a read hands over is what it is noted to have read. -/
theorem pollRead_read (s : YamuxStream) (down : Channel Bytes) (bufLen : Nat) :
    ∃ out, (s.pollRead down bufLen).2.1.read = s.read ++ out ∧
      (s.pollRead down bufLen).2.1.written = s.written ∧
      ∀ bs, (s.pollRead down bufLen).1 = .ready (.ok bs) → bs = out := by
  have hok : ∀ out bs : Bytes, (Poll.ready (.ok out) : Poll (Except StreamIoError Bytes)) =
      .ready (.ok bs) → bs = out := by
    intro out bs h
    cases h
    rfl
  simp only [YamuxStream.pollRead]
  split
  · exact ⟨_, rfl, rfl, hok _⟩
  · split
    · exact ⟨[], (List.append_nil _).symm, rfl, fun bs h => by cases h⟩
    · exact ⟨[], (List.append_nil _).symm, rfl, fun bs h => by cases h⟩
    · split
      · exact ⟨[], (List.append_nil _).symm, rfl, hok []⟩
      · exact ⟨_, rfl, rfl, hok _⟩

theorem endReported_eq {result : Poll (Except StreamIoError Bytes)} {bufLen : Nat}
    (h : endReported result bufLen = true) : result = .ready (.ok []) := by
  match result, h with
  | .ready (.ok []), _ => rfl

theorem pollRead_ends (p : StreamPair) (bufLen : Nat) :
    p.ends.Step (p.pollRead bufLen).2.ends := by
  obtain ⟨out, hread, hwritten, hout⟩ := pollRead_read p.handle p.down bufLen
  have heq : (p.pollRead bufLen).2.ends = { p.ends with
      read := p.handle.read ++ out
      ended := p.eof || endReported (p.handle.pollRead p.down bufLen).1 bufLen } := by
    rw [← hread, ends, ends, ← hwritten]
    rfl
  rw [heq]
  cases hend : endReported (p.handle.pollRead p.down bufLen).1 bufLen with
  | false =>
      rw [Bool.or_false]
      exact .read out
  | true =>
      -- a read that reports the end returns nothing
      have hnone := hout [] (endReported_eq hend)
      rw [Bool.or_true, ← hnone, List.append_nil]
      exact .finish

theorem handleOp_ends (p : StreamPair) (op : HandleOp) : p.ends.Step (p.handleOp op).ends := by
  by_cases hh : p.handleAlive
  · simp only [handleOp, if_pos hh]
    cases op with
    | write buf => exact p.pollWrite_ends buf
    | close | drop => exact .close
    | read bufLen => exact p.pollRead_ends bufLen
  · simp only [handleOp, if_neg hh]
    exact .none

theorem onInput_ends (p : StreamPair) (event : FrameStreamEvent) :
    (p.onInput event).2.ends = p.ends := rfl

theorem dropHead_ends (p : StreamPair) : p.dropHead.ends = p.ends := rfl

theorem pollNext_ends (p : StreamPair) : p.pollNext.2.ends = p.ends := by
  simp only [pollNext, YamuxStreamHead.pollNext]
  split
  · rfl
  · split
    · rfl
    · split <;> rfl

theorem drainHead_ends (fuel : Nat) (p : StreamPair) :
    (YamuxSession.drainHead fuel p).2.2.ends = p.ends := by
  induction fuel generalizing p with
  | zero => rfl
  | succ fuel ih =>
      have hnext := p.pollNext_ends
      rw [YamuxSession.drainHead]
      split
      · rename_i event q hpoll
        rw [hpoll] at hnext
        exact (ih q).trans hnext
      · rename_i q hpoll
        rw [hpoll] at hnext
        exact hnext
      · rename_i q hpoll
        rw [hpoll] at hnext
        exact hnext

end StreamPair

/-! ### What a step does to the ends -/

namespace YamuxSession

variable {s s' : YamuxSession} {id : StreamID}

theorem mem_streamsOf {p : StreamPair} : p ∈ s.streamsOf id ↔ s.Holds id p := by
  rw [streamsOf, List.mem_append, List.mem_filter, Option.mem_toList, decide_eq_true_eq, Holds]
  exact or_comm

/-- What the handles of an id show. -/
def ends (s : YamuxSession) (id : StreamID) : List HandleEnds :=
  (s.streamsOf id).map StreamPair.ends

theorem ends_congr (hstreams : s'.streams = s.streams) (hdropped : s'.dropped = s.dropped)
    (id : StreamID) : s'.ends id = s.ends id :=
  congrArg (List.map StreamPair.ends) (streamsOf_congr hstreams hdropped id)

theorem ends_insertStream (hpairs : PairsOk s) (id' : StreamID) {q : StreamPair}
    (hq : q.ends = HandleEnds.new) (id : StreamID) :
    (s.insertStream id' q).ends id = s.ends id ++ if id = id' then [HandleEnds.new] else [] := by
  have hinsert := map_insertStream StreamPair.ends (hpairs.handleId id')
    StreamPair.dropHead_ends q id
  rw [hq] at hinsert
  exact hinsert

end YamuxSession

section Steps

variable {s s' : YamuxSession} {t : YamuxTransport}

/-- A frame does not move a handle; with `SYN` it may bring a new one. -/
theorem Dispatch.ends {frame : Frame} (h : Dispatch { s with transport := t } frame s')
    (hpairs : PairsOk s) (id : StreamID) :
    s'.ends id = s.ends id ∨ s'.ends id = s.ends id ++ [HandleEnds.new] ∧
      ∃ event, frame = .stream id event ∧ event.carries Flags.syn = true := by
  cases h with
  | ping | quiet | unknown => exact Or.inl (YamuxSession.ends_congr rfl rfl id)
  | @input id' p event hp =>
      left
      rw [YamuxSession.ends, YamuxSession.streamsOf_logError]
      exact YamuxSession.map_setStream (s := { s with transport := t }) StreamPair.ends hp
        (p.onInput_ends event) id
  | @accept id' event flags hnone hflags hsyn =>
      have hinsert := YamuxSession.ends_insertStream (s := { s with transport := t })
        (hpairs.congr rfl rfl) id' (q := ((StreamPair.acceptStream id').onInput event).2) rfl id
      rw [YamuxSession.ends, YamuxSession.streamsOf_logError]
      by_cases hid : id = id'
      · subst hid
        rw [if_pos rfl] at hinsert
        refine Or.inr ⟨hinsert, event, rfl, ?_⟩
        rw [FrameStreamEvent.carries, hflags]
        exact hsyn
      · rw [if_neg hid, List.append_nil] at hinsert
        exact Or.inl hinsert

theorem PollStep.ends (h : PollStep s s') (hpairs : PairsOk s) (id : StreamID) :
    s'.ends id = s.ends id ∨ s'.ends id = s.ends id ++ [HandleEnds.new] ∧
      ∃ event, s'.transport.received = s.transport.received ++ [.stream id event] ∧
        event.carries Flags.syn = true := by
  cases h with
  | flush | send | closeIo => exact Or.inl (YamuxSession.ends_congr rfl rfl id)
  | @receive t event pushed hreceive =>
      by_cases hframe : ∃ frame, event = .ready (some (.ok frame))
      · obtain ⟨frame, rfl⟩ := hframe
        have hdispatch := YamuxSession.onFrame_dispatch { s with transport := t } frame
        rcases hdispatch.ends hpairs id with hsame | ⟨hnew, e, rfl, hsyn⟩
        · exact Or.inl hsame
        · refine Or.inr ⟨hnew, e, ?_, hsyn⟩
          rw [YamuxSession.deliver_transport]
          exact hreceive.received
      · have hnot : ∀ frame, event ≠ .ready (some (.ok frame)) :=
          fun frame heq => hframe ⟨frame, heq⟩
        rw [YamuxSession.deliver_of_not_frame hnot]
        exact Or.inl (YamuxSession.ends_congr rfl rfl id)
  | @drain id' p hp =>
      have hsame : (s.drainStream id' p).1.ends id =
          (s.setStream id' (YamuxSession.drainHead (YamuxSession.drainWork p) p).2.2).ends id :=
        YamuxSession.ends_congr rfl rfl id
      have hset := YamuxSession.map_setStream StreamPair.ends hp
        (StreamPair.drainHead_ends (YamuxSession.drainWork p) p) id
      exact Or.inl (hsame.trans hset)
  | remove id' =>
      exact Or.inl (YamuxSession.map_removeStream StreamPair.ends (hpairs.handleId id')
        StreamPair.dropHead_ends id)

theorem YamuxSession.openStream_ends (hpairs : PairsOk s) (id : StreamID) :
    s.openStream.ends id =
      s.ends id ++ if id = ⟨s.nextStreamId⟩ then [HandleEnds.new] else [] := by
  let s₁ : YamuxSession := { s with
    nextStreamId := if s.nextStreamId + 2 = 0 then 2 else s.nextStreamId + 2 }
  have hpairs₁ : PairsOk s₁ := hpairs.congr rfl rfl
  exact YamuxSession.ends_insertStream hpairs₁ ⟨s.nextStreamId⟩
    (q := StreamPair.openStream ⟨s.nextStreamId⟩) rfl id

/-- One of the handles of an id is used. -/
theorem YamuxSession.handleOp_ends (s : YamuxSession) (ref : HandleRef) (op : HandleOp) :
    ∃ id, (∀ id', id' ≠ id → (s.handleOp ref op).ends id' = s.ends id') ∧
      List.Forall₂ HandleEnds.Step (s.ends id) ((s.handleOp ref op).ends id) := by
  obtain ⟨id, hothers, hid⟩ := s.handleOp_streamsOf ref op
  refine ⟨id, fun id' hne => congrArg (List.map StreamPair.ends) (hothers id' hne), ?_⟩
  rw [ends, ends, List.forall₂_map_left_iff, List.forall₂_map_right_iff]
  apply hid.imp
  rintro p q (rfl | rfl)
  · exact .none
  · exact p.handleOp_ends op

end Steps

/-! ### The pipes of a world -/

/-- What the handle of an id shows, if there has been one. -/
def Side.shown (a : Side) (id : StreamID) : HandleEnds := (a.session.ends id).headD HandleEnds.new

namespace Side

variable {a b : Side} {id : StreamID}

/-- A new handle shows nothing. -/
theorem shown_of_append {new : List HandleEnds} (hnew : ∀ e ∈ new, e = HandleEnds.new)
    (h : b.session.ends id = a.session.ends id ++ new) : b.shown id = a.shown id := by
  rw [shown, shown, h]
  cases a.session.ends id with
  | cons e es => rfl
  | nil =>
      cases new with
      | nil => rfl
      | cons e es => exact hnew e List.mem_cons_self

theorem shown_eq (a : Side) (id : StreamID) :
    (∀ p, ¬ a.session.Holds id p) ∧ a.shown id = HandleEnds.new ∨
      ∃ p, a.session.Holds id p ∧ a.shown id = p.ends := by
  rw [shown, YamuxSession.ends]
  cases hstreams : a.session.streamsOf id with
  | nil =>
      refine Or.inl ⟨fun p hp => ?_, rfl⟩
      rw [← YamuxSession.mem_streamsOf, hstreams] at hp
      cases hp
  | cons p ps =>
      refine Or.inr ⟨p, ?_, rfl⟩
      rw [← YamuxSession.mem_streamsOf, hstreams]
      exact List.mem_cons_self

theorem headD_step {es es' : List HandleEnds} (h : List.Forall₂ HandleEnds.Step es es') :
    (es.headD HandleEnds.new).Step (es'.headD HandleEnds.new) := by
  cases h with
  | nil => exact .none
  | cons hfirst _ => exact hfirst

/-- A call of `poll_next` moves no handle. -/
theorem shown_pollStep {s' : YamuxSession} (h : PollStep a.session s') (hpairs : PairsOk a.session)
    (id : StreamID) : Side.shown { a with session := s' } id = a.shown id := by
  rcases h.ends hpairs id with hsame | ⟨hnew, -⟩
  · rw [shown, shown, hsame]
  · exact shown_of_append (fun e he => List.mem_singleton.mp he) hnew

/-- A step moves one handle, if any. -/
theorem Step.shown (h : Side.Step a b) (hpairs : PairsOk a.session) :
    ∃ id, (∀ id', id' ≠ id → b.shown id' = a.shown id') ∧
      (a.shown id).Step (b.shown id) := by
  have hquiet : (∀ id, b.shown id = a.shown id) → ∃ id,
      (∀ id', id' ≠ id → b.shown id' = a.shown id') ∧ (a.shown id).Step (b.shown id) := by
    intro hsame
    refine ⟨⟨0⟩, fun id' _ => hsame id', ?_⟩
    rw [hsame]
    exact .none
  cases h with
  | openStream =>
      apply hquiet
      intro id
      refine shown_of_append ?_ (YamuxSession.openStream_ends hpairs id)
      intro e he
      split at he
      · exact List.mem_singleton.mp he
      · cases he
  | @other s' hstep =>
      cases hstep with
      | openStream hguard => exact absurd rfl hguard.1
      | close | behave =>
          apply hquiet
          intro id
          rfl
      | handle ref op =>
          obtain ⟨id, hothers, hid⟩ := a.session.handleOp_ends ref op
          refine ⟨id, fun id' hne => ?_, ?_⟩
          · show ((a.session.handleOp ref op).ends id').headD _ = _
            rw [hothers id' hne]
            rfl
          · rw [Side.shown, Side.shown]
            exact headD_step hid
      | poll hpoll =>
          apply hquiet
          intro id
          exact shown_pollStep hpoll hpairs id

end Side

/-- The pipe from one end to the other under an id. -/
def World.pipes (w : World) (i : Role × StreamID) : Pipe UInt8 :=
  { written := ((w i.1).shown i.2).written
    closed := ((w i.1).shown i.2).closed
    read := ((w i.1.peer).shown i.2).read
    ended := ((w i.1.peer).shown i.2).ended }

section Worlds

variable {maxWriteBuffer : Role → Nat} {w w' : World}

/-- What has come out of a pipe was put into it. -/
theorem World.pipes_sound (h : (worldMachine maxWriteBuffer).Reachable w) (r : Role)
    (id : StreamID) : (w.pipes (r, id)).Sound := by
  obtain ⟨ho, hback⟩ := World.sound h r
  obtain ⟨ha, hpipe⟩ := World.sound h r.peer
  rw [Role.peer_peer] at hpipe
  have ho' : Sound (!r.peer.isServer) (w r) := by
    rw [Role.isServer_peer, Bool.not_not]
    exact ho
  have hboth : ((w r.peer).shown id).read <+: ((w r).shown id).written ∧
      (((w r.peer).shown id).ended = true → ((w r).shown id).closed = true ∧
        ((w r.peer).shown id).read = ((w r).shown id).written) := by
    rcases (w r.peer).shown_eq id with ⟨-, hnew⟩ | ⟨q, hq, hshown⟩
    · rw [hnew]
      exact ⟨List.nil_prefix, fun hended => by cases hended⟩
    · rw [hshown]
      rcases (w r).shown_eq id with ⟨hnone, -⟩ | ⟨p, hp, hshown'⟩
      · -- without a sender there is nothing to read
        have hunread : ¬ (q.handle.read ≠ [] ∨ q.eof = true) := by
          intro hread
          obtain ⟨p, hp⟩ := ha.sender ho' hpipe (ha.heard_of_read hq hread)
          exact hnone p hp
        rw [not_or, not_not] at hunread
        refine ⟨?_, fun heof => absurd heof hunread.2⟩
        show q.handle.read <+: _
        rw [hunread.1]
        exact List.nil_prefix
      · rw [hshown']
        refine ⟨ha.read_prefix ho' hpipe hq hp, fun heof => ?_⟩
        obtain ⟨hsender, hall⟩ := ha.read_all ho' hpipe hback hq hp heof
        refine ⟨?_, hall⟩
        show (!p.up.senderOpen) = true
        rw [hsender]
        rfl
  exact ⟨hboth.1, hboth.2⟩

/-- The pipes when one end has moved: those it writes to. -/
theorem World.pipes_self (w : World) (r : Role) (a : Side) (id : StreamID) :
    pipes (Function.update w r a) (r, id) = { w.pipes (r, id) with
      written := (a.shown id).written
      closed := (a.shown id).closed } := by
  simp only [pipes, Function.update_self, Function.update_of_ne r.peer_ne]

/-- Those it reads from. -/
theorem World.pipes_peer (w : World) (r : Role) (a : Side) (id : StreamID) :
    pipes (Function.update w r a) (r.peer, id) = { w.pipes (r.peer, id) with
      read := (a.shown id).read
      ended := (a.shown id).ended } := by
  simp only [pipes, Role.peer_peer, Function.update_self, Function.update_of_ne r.peer_ne]

/-- A handle that shows the same as before leaves both of its pipes alone. -/
theorem World.pipes_same {r r' : Role} {a : Side} {id : StreamID}
    (h : a.shown id = (w r).shown id) :
    pipes (Function.update w r a) (r', id) = w.pipes (r', id) := by
  rcases r.eq_or_eq_peer r' with rfl | rfl
  · rw [pipes_self, h]
    rfl
  · rw [pipes_peer, h]
    simp only [pipes, Role.peer_peer]

/-- The pipes of all ids, in both directions. -/
def pipeFamily : Run.Machine (Role × StreamID → Pipe UInt8) :=
  Run.Machine.family fun _ => Pipe.machine

section Moves

variable {r : Role} {a : Side} {id : StreamID}

/-- The pipe a handle writes to makes a step. -/
theorem World.writes (hothers : ∀ id', id' ≠ id → a.shown id' = (w r).shown id')
    (hread : (a.shown id).read = ((w r).shown id).read)
    (hended : (a.shown id).ended = ((w r).shown id).ended)
    (hstep : Pipe.Step (w.pipes (r, id)) (pipes (Function.update w r a) (r, id))) :
    pipeFamily.step w.pipes (pipes (Function.update w r a)) := by
  refine Run.Machine.family_step hstep ?_
  rintro ⟨r', id'⟩ hne
  by_cases hid : id' = id
  · subst hid
    rcases r.eq_or_eq_peer r' with rfl | rfl
    · exact absurd rfl hne
    · rw [pipes_peer, hread, hended]
      simp only [pipes, Role.peer_peer]
  · exact pipes_same (hothers id' hid)

/-- The pipe a handle reads from makes a step. -/
theorem World.reads (hothers : ∀ id', id' ≠ id → a.shown id' = (w r).shown id')
    (hwritten : (a.shown id).written = ((w r).shown id).written)
    (hclosed : (a.shown id).closed = ((w r).shown id).closed)
    (hstep : Pipe.Step (w.pipes (r.peer, id)) (pipes (Function.update w r a) (r.peer, id))) :
    pipeFamily.step w.pipes (pipes (Function.update w r a)) := by
  refine Run.Machine.family_step hstep ?_
  rintro ⟨r', id'⟩ hne
  by_cases hid : id' = id
  · subst hid
    rcases r.eq_or_eq_peer r' with rfl | rfl
    · rw [pipes_self, hwritten, hclosed]
      rfl
    · exact absurd rfl hne
  · exact pipes_same (hothers id' hid)

end Moves

theorem World.pipes_init (hw : (worldMachine maxWriteBuffer).init w) :
    pipeFamily.init w.pipes := by
  obtain rfl := hw
  rintro ⟨r, id⟩
  cases r <;> rfl

/-- Every step is a step of one of the pipes, or of none. -/
theorem World.pipes_step (hreach : (worldMachine maxWriteBuffer).Reachable w)
    (hstep : (worldMachine maxWriteBuffer).step w w') :
    ReflGen pipeFamily.step w.pipes w'.pipes := by
  have hreach' := hreach.step hstep
  obtain ⟨r, a, hside, -, rfl⟩ := hstep
  have hpairs := (World.sound hreach r).1.pairs
  obtain ⟨id, hothers, hid⟩ := hside.shown hpairs
  have hwrites := World.pipes_self w r a id
  have hreads := World.pipes_peer w r a id
  have hpeer : w.pipes (r.peer, id) = { w.pipes (r.peer, id) with
      read := ((w r).shown id).read
      ended := ((w r).shown id).ended } := by
    simp only [World.pipes, Role.peer_peer]
  -- what has been read afterwards is as it should be
  have hsound := World.pipes_sound hreach' r.peer id
  generalize hshown : a.shown id = e at hid hwrites hreads
  rw [hreads] at hsound
  cases hid with
  | none =>
      have hsame : World.pipes (Function.update w r a) = w.pipes := by
        funext ⟨r', id'⟩
        by_cases hne : id' = id
        · subst hne
          exact World.pipes_same hshown
        · exact World.pipes_same (hothers id' hne)
      rw [hsame]
  | write buf hopen =>
      refine .single (World.writes hothers (by rw [hshown]) (by rw [hshown]) ?_)
      rw [hwrites]
      exact .write buf hopen
  | close =>
      refine .single (World.writes hothers (by rw [hshown]) (by rw [hshown]) ?_)
      rw [hwrites]
      exact .close
  | read buf =>
      refine .single (World.reads hothers (by rw [hshown]) (by rw [hshown]) ?_)
      rw [hreads, hpeer]
      exact .read buf hsound.isPrefix
  | finish =>
      obtain ⟨hclosed, hall⟩ := hsound.complete rfl
      refine .single (World.reads hothers (by rw [hshown]) (by rw [hshown]) ?_)
      rw [hreads, hpeer]
      exact .finish hclosed hall

/-- In every run of a client and a server joined by two byte pipes, without empty
writes and with fewer than `2 ^ 31 - 1` calls of `open_stream` at each end, what a
step does is, for the pipes between their handles, a step of reliable pipes, of
which there is one for each direction of each id, or nothing. -/
theorem world_refines_pipes (maxWriteBuffer : Role → Nat) :
    (worldMachine maxWriteBuffer).Refines pipeFamily World.pipes :=
  ⟨fun _ => World.pipes_init, fun _ _ => World.pipes_step⟩

/-- In every run of a client and a server joined by two byte pipes, without empty
writes and with fewer than `2 ^ 31 - 1` calls of `open_stream` at each end: once a
read has reported the end, nothing more is written to the pipe, or read from it,
however the run goes on. -/
theorem end_is_final (hreach : (worldMachine maxWriteBuffer).Reachable w)
    (hsteps : (worldMachine maxWriteBuffer).Steps w w') {i : Role × StreamID}
    (hended : (w.pipes i).ended = true) : w'.pipes i = w.pipes i := by
  have hrefines : (worldMachine maxWriteBuffer).Refines pipeFamily World.pipes :=
    ⟨fun _ => World.pipes_init, fun _ _ => World.pipes_step⟩
  have hpipes := hrefines.steps hreach hsteps
  have hsound := Pipe.sound_of_reachable ((hrefines.reachable hreach).member i)
  exact Pipe.frozen (hpipes.member i) hsound hended

/-- The server has read the end of what the client has written, and reads once
more. -/
theorem end_is_final_exchange :
    ∃ w w', (worldMachine fun _ => 0).Reachable w ∧ (worldMachine fun _ => 0).Steps w w' ∧
      (w.pipes (.client, ⟨1⟩)).ended = true ∧
      w'.pipes (.client, ⟨1⟩) = w.pipes (.client, ⟨1⟩) := by
  obtain ⟨w, hrun, hended⟩ := Option.map_eq_some_iff.mp (by decide +kernel :
    ((World.new fun _ => 0).run exchange).map (fun w => (w.pipes (.client, ⟨1⟩)).ended) =
      some true)
  have hreach := callMachine_reachable (World.reachable_of_run (.init rfl) hrun)
  have hplain : plainMove (w .server).session (.handle (.registered ⟨1⟩) (.read 16)) :=
    ⟨nofun, nofun⟩
  have hstep : (worldMachine fun _ => 0).Steps w (Function.update w .server
      { w .server with session := (w .server).session.handleOp (.registered ⟨1⟩) (.read 16) }) := by
    refine World.steps .server (.single (.handle _ _ hplain)) ?_
    rw [handleOp_transport]
    exact (World.sound hreach .server).2
  exact ⟨w, _, hreach, hstep, hended, end_is_final hreach hstep hended⟩

end Worlds

end YamuxLowMem
