/-
YamuxLowMem/Orphans.lean

Handles that have outlived their heads.

A session drops a head when the stream is closed or its id is used again, and
all heads when it is dropped itself.  The application is left with a handle that
is connected to nothing, and must not wait for it: no operation of such a handle
is pending.  What the head has taken in before can still be read to the last
byte; then reads fail, as writes do from the start.
-/
import YamuxLowMem.SessionRun

namespace YamuxLowMem

open Async Relation

/-! ### Streams without a head -/

/-- The head has dropped both of its channel ends. -/
structure Orphaned (p : StreamPair) : Prop where
  up : p.up.receiverOpen = false
  down : p.down.senderOpen = false

theorem Orphaned.dropHead (p : StreamPair) : Orphaned p.dropHead := ⟨rfl, rfl⟩

namespace StreamPair

variable {p : StreamPair}

/-- Reads into buffers of these lengths, one after the other. -/
def reads (p : StreamPair) : List Nat → List (Poll (Except StreamIoError Bytes)) × StreamPair
  | [] => ([], p)
  | bufLen :: sizes =>
      let (answer, p) := p.pollRead bufLen
      let (answers, p) := p.reads sizes
      (answer :: answers, p)

/-- The bytes an answer hands over. -/
def handedOver : Poll (Except StreamIoError Bytes) → Bytes
  | .ready (.ok out) => out
  | _ => []

/-- A bound on the reads it takes to reach the last byte: one for each byte,
and for each empty chunk. -/
def readsLeft (p : StreamPair) : Nat :=
  p.handle.rest.length + (p.down.queue.map fun chunk => max 1 chunk.length).sum

/-- A read takes a byte of a chunk at least. -/
theorem readChunk_left (s : YamuxStream) {chunk : Bytes} {offset bufLen : Nat}
    (hoffset : offset < chunk.length) (hbuf : 0 < bufLen) :
    (s.readChunk chunk offset bufLen).2.rest.length < (chunk.drop offset).length := by
  obtain ⟨-, hsplit, hne, -⟩ := s.readChunk_spec bufLen hoffset
  have hlen := congrArg List.length hsplit
  have hpos := List.length_pos_iff.mpr (hne hbuf)
  rw [List.length_append] at hlen
  omega

/-- What a read of an orphaned handle does. -/
theorem pollRead_orphaned (h : Orphaned p) (hread : ReadInv p) {bufLen : Nat} (hbuf : 0 < bufLen) :
    (∃ out, (p.pollRead bufLen).1 = .ready (.ok out) ∧
      (p.pollRead bufLen).2.handle.read = p.handle.read ++ out ∧
      (p.pollRead bufLen).2.readsLeft < p.readsLeft) ∨
    (p.pollRead bufLen).1 = .ready (.error .brokenPipe) ∧ (p.pollRead bufLen).2 = p ∧
      p.readsLeft = 0 := by
  cases hc : p.handle.recvChunk with
  | some current =>
      obtain ⟨chunk, offset⟩ := current
      have hrest : p.handle.rest = chunk.drop offset := by rw [YamuxStream.rest, hc]
      have hless := readChunk_left p.handle (hread.offset chunk offset hc) hbuf
      left
      simp only [pollRead, YamuxStream.pollRead, hc]
      refine ⟨_, rfl, rfl, ?_⟩
      rw [readsLeft, readsLeft, hrest]
      exact Nat.add_lt_add_right hless _
  | none =>
      have hrest : p.handle.rest = [] := by rw [YamuxStream.rest, hc]
      cases hq : p.down.queue with
      | nil =>
          right
          refine ⟨?_, ?_, ?_⟩
          · simp only [pollRead, YamuxStream.pollRead, hc, Channel.pollNext, hq, h.down]
            rfl
          · simp only [pollRead, YamuxStream.pollRead, hc, Channel.pollNext, hq, h.down,
              endReported, Bool.or_false, Bool.false_eq_true, if_false]
          · rw [readsLeft, hrest, hq]
            rfl
      | cons chunk rest =>
          left
          cases chunk with
          | nil =>
              -- the mark of the end
              simp only [pollRead, YamuxStream.pollRead, hc, Channel.pollNext, hq]
              refine ⟨[], rfl, (List.append_nil _).symm, ?_⟩
              rw [readsLeft, readsLeft, hq, List.map_cons, List.sum_cons]
              exact Nat.add_lt_add_left (Nat.lt_add_of_pos_left (by decide)) _
          | cons b bs =>
              have hpos : 0 < (b :: bs).length := Nat.succ_pos _
              have hless := readChunk_left p.handle hpos hbuf
              rw [List.drop_zero] at hless
              simp only [pollRead, YamuxStream.pollRead, hc, Channel.pollNext, hq]
              refine ⟨_, rfl, rfl, ?_⟩
              rw [readsLeft, readsLeft, hrest, hq, List.map_cons, List.sum_cons, ← Nat.add_assoc]
              apply Nat.add_lt_add_right
              rw [List.length_nil, Nat.zero_add]
              exact Nat.lt_of_lt_of_le hless (Nat.le_max_right _ _)

/-- A read takes something off the channel at most. -/
theorem pollRead_down (s : YamuxStream) (down : Channel Bytes) (bufLen : Nat) :
    (s.pollRead down bufLen).2.2.senderOpen = down.senderOpen ∧
      (s.pollRead down bufLen).2.2.receiverOpen = down.receiverOpen := by
  simp only [YamuxStream.pollRead]
  split
  · exact ⟨rfl, rfl⟩
  · have hnext : down.pollNext.2.senderOpen = down.senderOpen ∧
        down.pollNext.2.receiverOpen = down.receiverOpen := by
      rw [Channel.pollNext]
      split <;> exact ⟨rfl, rfl⟩
    split
    · rename_i heq
      rw [heq] at hnext
      exact hnext
    · rename_i heq
      rw [heq] at hnext
      exact hnext
    · rename_i heq
      rw [heq] at hnext
      split <;> exact hnext

end StreamPair

/-- A handle in use whose head is gone. -/
structure Left (p : StreamPair) : Prop where
  orphaned : Orphaned p
  known : Known p
  alive : p.handleAlive

namespace Left

variable {p : StreamPair}

theorem readInv (h : Left p) : ReadInv p := by
  obtain ⟨opened, id, hreach⟩ := h.known
  exact hreach.readInv

theorem pollRead (h : Left p) (bufLen : Nat) : Left (p.pollRead bufLen).2 := by
  obtain ⟨hsender, hreceiver⟩ := StreamPair.pollRead_down p.handle p.down bufLen
  obtain ⟨opened, id, hreach⟩ := h.known
  refine ⟨⟨h.orphaned.up, hsender.trans h.orphaned.down⟩, ?_, hreceiver.trans h.alive⟩
  exact ⟨opened, id, hreach.steps (StreamPair.pollRead_steps h.alive bufLen)⟩

/-- With nothing left to read, nothing is buffered. -/
theorem empty (h : Left p) (hnone : p.readsLeft = 0) :
    p.handle.recvChunk = none ∧ p.down.queue = [] := by
  rw [StreamPair.readsLeft, Nat.add_eq_zero_iff] at hnone
  constructor
  · cases hc : p.handle.recvChunk with
    | none => rfl
    | some current =>
        -- a chunk that is kept has a byte left
        obtain ⟨chunk, offset⟩ := current
        have hoffset := h.readInv.offset chunk offset hc
        rw [YamuxStream.rest, hc, List.length_drop] at hnone
        omega
  · cases hq : p.down.queue with
    | nil => rfl
    | cons chunk rest =>
        have hsum := hnone.2
        rw [hq, List.map_cons, List.sum_cons] at hsum
        have hpos := Nat.le_max_left 1 chunk.length
        omega

/-- Then all that has come in has been read. -/
theorem all_read (h : Left p) (hnone : p.readsLeft = 0) :
    p.handle.read = payloadOf p.inputs := by
  obtain ⟨hchunk, hqueue⟩ := h.empty hnone
  have hrest : p.handle.rest = [] := by rw [YamuxStream.rest, hchunk]
  obtain ⟨popped, hlog, hpopped⟩ := h.readInv.popped h.alive
  rw [hqueue, List.append_nil] at hlog
  rw [hrest, List.append_nil] at hpopped
  rw [← hpopped, ← hlog, h.readInv.tracks h.alive]

theorem reads (h : Left p) {sizes : List Nat} (hsizes : ∀ n ∈ sizes, 0 < n) :
    Left (p.reads sizes).2 ∧ (∀ a ∈ (p.reads sizes).1, a ≠ .pending) ∧
      (p.reads sizes).2.handle.read =
        p.handle.read ++ (p.reads sizes).1.flatMap StreamPair.handedOver ∧
      (p.reads sizes).2.readsLeft ≤ p.readsLeft - sizes.length ∧
      (p.reads sizes).2.inputs = p.inputs := by
  induction sizes generalizing p with
  | nil => exact ⟨h, fun a ha => (by cases ha), (List.append_nil _).symm, Nat.le_refl _, rfl⟩
  | cons bufLen sizes ih =>
      obtain ⟨hleft, hready, hread, hless, hinputs⟩ :=
        ih (h.pollRead bufLen) fun n hn => hsizes n (List.mem_cons_of_mem _ hn)
      have hinputs' : (p.pollRead bufLen).2.inputs = p.inputs := rfl
      have hone := StreamPair.pollRead_orphaned h.orphaned h.readInv
        (hsizes bufLen List.mem_cons_self)
      simp only [StreamPair.reads, List.mem_cons, forall_eq_or_imp, List.flatMap_cons,
        List.length_cons]
      rcases hone with ⟨out, hanswer, hout, hfewer⟩ | ⟨hanswer, hsame, hnone⟩
      · refine ⟨hleft, ⟨?_, hready⟩, ?_, by omega, hinputs⟩
        · rw [hanswer]
          exact nofun
        · rw [hread, hout, hanswer, List.append_assoc]
          rfl
      · refine ⟨hleft, ⟨?_, hready⟩, ?_, ?_, hinputs⟩
        · rw [hanswer]
          exact nofun
        · rw [hread, hsame, hanswer]
          rfl
        · have hzero : (p.pollRead bufLen).2.readsLeft = 0 := by rw [hsame, hnone]
          omega

end Left

/-! ### The orphans of a session -/

section Sessions

variable {isServer : Bool} {maxWriteBuffer : Nat} {guard : Guard} {s s' : YamuxSession}

section Dropped

variable {D : StreamPair → Prop}

theorem Dispatch.dropped {frame : Frame} (h : Dispatch s frame s')
    (hdrop : ∀ p : StreamPair, D p.dropHead) (hs : Pairs (fun _ _ => True) D s) :
    Pairs (fun _ _ => True) D s' := by
  cases h with
  | ping | quiet | unknown => exact hs.congr rfl rfl
  | input event hp => exact (hs.setStream trivial).logError _
  | accept => exact (hs.insertStream (fun _ p _ => hdrop p) trivial).logError _

theorem PollStep.dropped (h : PollStep s s') (hdrop : ∀ p : StreamPair, D p.dropHead)
    (hs : Pairs (fun _ _ => True) D s) : Pairs (fun _ _ => True) D s' := by
  cases h with
  | flush | send | closeIo => exact hs.congr rfl rfl
  | @receive t event pushed hreceive =>
      have ht : Pairs (fun _ _ => True) D { s with transport := t } := hs.congr rfl rfl
      unfold YamuxSession.deliver
      split
      · exact (YamuxSession.onFrame_dispatch _ _).dropped hdrop ht
      · exact ht
  | @drain id p hp =>
      have hset : Pairs (fun _ _ => True) D
          (s.setStream id (YamuxSession.drainHead (YamuxSession.drainWork p) p).2.2) :=
        hs.setStream trivial
      exact hset.congr rfl rfl
  | remove id => exact hs.removeStream (fun _ p _ => hdrop p) id

/-- What holds of a stream from the loss of its head on, holds of all streams
without one. -/
theorem SessionReachable.dropped (h : SessionReachable isServer maxWriteBuffer guard s)
    (hdrop : ∀ p : StreamPair, D p.dropHead) (hop : ∀ p op, D p → D (p.handleOp op)) :
    Pairs (fun _ _ => True) D s := by
  refine h.invariant ?_ ?_
  · rintro s rfl
    exact ⟨fun _ _ _ => trivial, fun p hp => by cases hp⟩
  · intro s s' hs hstep
    cases hstep with
    | openStream =>
        have hs' : Pairs (fun _ _ => True) D { s with
            nextStreamId := if s.nextStreamId + 2 = 0 then 2 else s.nextStreamId + 2 } :=
          hs.congr rfl rfl
        exact hs'.insertStream (fun _ p _ => hdrop p) trivial
    | close | behave => exact hs.congr rfl rfl
    | handle ref op => exact hs.handleOp ref op (fun _ _ _ => trivial) fun p => hop p op
    | poll hpoll => exact hpoll.dropped hdrop hs

end Dropped

theorem Orphaned.handleOp {p : StreamPair} (h : Orphaned p) (op : HandleOp) :
    Orphaned (p.handleOp op) := by
  by_cases hh : p.handleAlive
  · simp only [StreamPair.handleOp, if_pos hh]
    cases op with
    | write buf =>
        simp only [StreamPair.pollWrite, YamuxStream.pollWrite, Channel.pollReady, h.up,
          Bool.and_false, Bool.false_eq_true, if_false]
        exact h
    | close => exact ⟨h.up, h.down⟩
    | drop => exact ⟨h.up, h.down⟩
    | read bufLen =>
        have hdown := StreamPair.pollRead_down p.handle p.down bufLen
        exact ⟨h.up, hdown.1.trans h.down⟩
  · simp only [StreamPair.handleOp, if_neg hh]
    exact h

/-- The streams without a head: those whose head the session has dropped, and
the registered ones once the session itself is dropped. -/
def YamuxSession.Orphan (s : YamuxSession) (p : StreamPair) : Prop :=
  p ∈ s.dropped ∨ ∃ id q, s.streams.lookup id = some q ∧ p = q.dropHead

/-- In every run, an operation on a handle whose head is gone is never pending:
writing fails, flushing and closing succeed, and reads into buffers that are not
empty hand over what is left of the payload that has come in for the stream, in
order and to the last byte, before they fail too. -/
theorem orphans_never_wait (h : (sessionMachine isServer maxWriteBuffer anything).Reachable s)
    {p : StreamPair} (hp : s.Orphan p) (halive : p.handleAlive) :
    (∀ buf, (p.pollWrite buf).1 = .ready (.error .brokenPipe)) ∧
      YamuxStream.pollFlush p.up = .ready (.ok ()) ∧
      (YamuxStream.pollClose p.up).1 = .ready (.ok ()) ∧
      ∀ sizes : List Nat, (∀ n ∈ sizes, 0 < n) →
        (∀ a ∈ (p.reads sizes).1, a ≠ .pending) ∧
        (p.reads sizes).2.handle.read =
          p.handle.read ++ (p.reads sizes).1.flatMap StreamPair.handedOver ∧
        (p.reads sizes).2.handle.read <+: payloadOf p.inputs ∧
        (p.readsLeft ≤ sizes.length →
          (p.reads sizes).2.handle.read = payloadOf p.inputs ∧
          ∀ bufLen, ((p.reads sizes).2.pollRead bufLen).1 = .ready (.error .brokenPipe)) := by
  have hreach := sessionMachine_reachable h
  have hknown : Known p ∧ Orphaned p := by
    rcases hp with hp | ⟨id, q, hq, rfl⟩
    · have horphans : Pairs (fun _ _ => True) Orphaned s :=
        hreach.dropped Orphaned.dropHead fun _ op ho => ho.handleOp op
      exact ⟨hreach.pairsOk.dropped p hp, horphans.dropped p hp⟩
    · obtain ⟨opened, hpair⟩ := (hreach.pairsOk.registered id q hq).reach
      exact ⟨⟨opened, id, hpair.step .dropHead⟩, .dropHead q⟩
  have hleft : Left p := ⟨hknown.2, hknown.1, halive⟩
  have hup := hleft.orphaned.up
  refine ⟨fun buf => ?_, ?_, rfl, fun sizes hsizes => ?_⟩
  · simp only [StreamPair.pollWrite, YamuxStream.pollWrite, Channel.pollReady, hup, Bool.and_false,
      Bool.false_eq_true, if_false]
  · simp only [YamuxStream.pollFlush, Channel.pollFlush, Channel.pollReady, hup, Bool.and_false,
      Bool.false_eq_true, if_false]
  · obtain ⟨hend, hready, hread, hless, hinputs⟩ := hleft.reads hsizes
    have hfront := hend.readInv.isPrefix.trans hend.readInv.log
    rw [hinputs] at hfront
    refine ⟨hready, hread, hfront, fun henough => ?_⟩
    have hnone : (p.reads sizes).2.readsLeft = 0 := by omega
    refine ⟨?_, fun bufLen => ?_⟩
    · rw [hend.all_read hnone, hinputs]
    · obtain ⟨hchunk, hqueue⟩ := hend.empty hnone
      simp only [StreamPair.pollRead, YamuxStream.pollRead, hchunk, Channel.pollNext, hqueue,
        hend.orphaned.down, Bool.false_eq_true, if_false]

/-- The peer resets a stream it has sent two bytes on, one of which has been
read. -/
def resetUnread : List Move :=
  [.poll [] [.ready (.ok ((Frame.stream ⟨2⟩ (.windowUpdate Flags.onlySyn 0)).encode ++
      (Frame.stream ⟨2⟩ (.data Flags.empty 2)).encode ++ [7, 8] ++
      (Frame.stream ⟨2⟩ (.windowUpdate Flags.onlyRst 0)).encode))] [] [],
    .poll [] [] [] [⟨2⟩], .handle (.dropped 0) (.read 1)]

/-- The other byte is still there, then come the end and the errors. -/
theorem orphans_never_wait_reset :
    ∃ s p, (sessionMachine false 0 anything).Reachable s ∧ s.Orphan p ∧ p.handleAlive ∧
      p.handle.read = [7] ∧ payloadOf p.inputs = [7, 8] ∧
      (p.reads [5, 5]).2.handle.read = [7, 8] ∧
      ((p.reads [5, 5]).2.pollRead 5).1 = .ready (.error .brokenPipe) := by
  have hrun : ((YamuxSession.new Io.new false 0).run resetUnread).map (fun s =>
      decide (s.dropped.map (fun p =>
        (p.handleAlive, p.handle.read, payloadOf p.inputs, p.readsLeft)) =
          [(true, [7], [7, 8], 2)])) = some true := by decide +kernel
  obtain ⟨s, hreach, hs⟩ := exists_of_run false 0 resetUnread hrun
  -- there is one such stream
  obtain ⟨p, hp, hfacts⟩ := List.map_eq_singleton_iff.mp (of_decide_eq_true hs)
  obtain ⟨halive, hread, hpayload, hleft⟩ := Prod.mk.inj hfacts |>.imp_right
    fun h => Prod.mk.inj h |>.imp_right Prod.mk.inj
  have horphan : s.Orphan p := Or.inl (hp ▸ List.mem_singleton.mpr rfl)
  have hall := (orphans_never_wait hreach horphan halive).2.2.2 [5, 5] (by decide)
  obtain ⟨hend, hfail⟩ := hall.2.2.2 (Nat.le_of_eq hleft)
  exact ⟨s, p, hreach, horphan, halive, hread, hpayload, hend.trans hpayload, hfail 5⟩

end Sessions

end YamuxLowMem
