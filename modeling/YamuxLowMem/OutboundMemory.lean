/-
YamuxLowMem/OutboundMemory.lean

How much outgoing data a session holds.

`poll_next` stops handing frames to the transport when that is not ready, but
it goes on taking data out of the heads: the queue of the session grows by up
to two chunks a stream at every call, whatever the I/O object takes.  When at
every call what is still queued of a stream, and what its head may take, come to
no more than two chunks, no stream is forgotten whose payload is still queued,
and no error is met while frames are handed over, the queue and the write buffer
stay within the limit and two chunks for each stream, and two more.
-/
import YamuxLowMem.WriteErrors
import Mathlib.Algebra.BigOperators.Group.Finset.Piecewise
import Mathlib.Algebra.Order.BigOperators.Group.Finset

namespace YamuxLowMem

open Async

/-! ### Payload in a queue of frames -/

namespace Frame

/-- The number of payload bytes of a frame. -/
def payloadLen : Frame → Nat
  | .stream _ (.dataChunk chunk) => chunk.length
  | _ => 0

/-- Does the frame belong to the stream? -/
def isOn (id : StreamID) : Frame → Bool
  | .stream id' _ => id' = id
  | .session _ => false

end Frame

/-- The payload bytes in a queue. -/
def queuedPayload (fs : List Frame) : Nat := (fs.map Frame.payloadLen).sum

/-- Those of one stream. -/
def payloadOn (id : StreamID) (fs : List Frame) : Nat := queuedPayload (fs.filter (Frame.isOn id))

section Payload

variable (id : StreamID) (fs fs' : List Frame)

@[simp] theorem queuedPayload_append :
    queuedPayload (fs ++ fs') = queuedPayload fs + queuedPayload fs' := by
  simp [queuedPayload]

@[simp] theorem payloadOn_append :
    payloadOn id (fs ++ fs') = payloadOn id fs + payloadOn id fs' := by
  rw [payloadOn, List.filter_append, queuedPayload_append]
  rfl

theorem payloadOn_le : payloadOn id fs ≤ queuedPayload fs := by
  induction fs with
  | nil => exact Nat.le_refl _
  | cons f fs ih =>
      simp only [payloadOn, queuedPayload] at ih ⊢
      by_cases hf : f.isOn id = true
      · rw [List.filter_cons_of_pos hf, List.map_cons, List.map_cons, List.sum_cons, List.sum_cons]
        exact Nat.add_le_add_left ih _
      · rw [List.filter_cons_of_neg hf, List.map_cons, List.sum_cons]
        exact Nat.le_trans ih (Nat.le_add_left _ _)

/-- If all payload belongs to the streams of `K`, it is counted there. -/
theorem queuedPayload_le_sum (K : Finset StreamID) (hK : ∀ id, payloadOn id fs ≠ 0 → id ∈ K) :
    queuedPayload fs ≤ ∑ id ∈ K, payloadOn id fs := by
  induction fs with
  | nil => exact Nat.zero_le _
  | cons f fs ih =>
      have hcons : ∀ id, payloadOn id (f :: fs) = payloadOn id [f] + payloadOn id fs :=
        fun id => payloadOn_append id [f] fs
      have hsum : ∑ id ∈ K, payloadOn id (f :: fs) =
          ∑ id ∈ K, payloadOn id [f] + ∑ id ∈ K, payloadOn id fs := by
        rw [← Finset.sum_add_distrib]
        exact Finset.sum_congr rfl fun id _ => hcons id
      have hrest := ih fun id hid => hK id (by rw [hcons]; omega)
      have hfirst : queuedPayload [f] ≤ ∑ id ∈ K, payloadOn id [f] := by
        by_cases hzero : queuedPayload [f] = 0
        · rw [hzero]
          exact Nat.zero_le _
        · match f with
          | .session event => exact absurd rfl hzero
          -- the stream of a frame with payload is one of `K`
          | .stream id event =>
              have hself : payloadOn id [.stream id event] = queuedPayload [.stream id event] := by
                simp [payloadOn, Frame.isOn]
              have hmem : id ∈ K := by
                apply hK
                rw [hcons, hself]
                omega
              rw [← hself]
              exact Finset.single_le_sum (f := fun id' => payloadOn id' [.stream id event])
                (fun _ _ => Nat.zero_le _) hmem
      rw [hsum, show f :: fs = [f] ++ fs from rfl, queuedPayload_append]
      exact Nat.add_le_add hfirst hrest

/-- The payload of a stream is that of its events. -/
theorem payloadOn_eq : payloadOn id fs = (payloadOf (eventsOn id fs)).length := by
  induction fs with
  | nil => rfl
  | cons f fs ih =>
      rw [show f :: fs = [f] ++ fs from rfl, payloadOn_append, eventsOn_append, payloadOf_append,
        List.length_append, ih]
      congr 1
      match f with
      | .session event => rfl
      | .stream id' event =>
          by_cases hid : id' = id
          · subst hid
            cases event <;>
              simp [payloadOn, queuedPayload, Frame.isOn, Frame.payloadLen,
                FrameStreamEvent.payload]
          · rw [eventsOn_ne id [] hid]
            simp [payloadOn, queuedPayload, Frame.isOn, hid]

theorem queuedPayload_pings (pings : List (Flags × UInt32)) :
    queuedPayload (pings.map fun ping => Frame.session (.ping ping.1 ping.2)) = 0 := by
  induction pings with
  | nil => rfl
  | cons ping pings ih => simpa [queuedPayload, Frame.payloadLen] using ih

end Payload

/-! ### The write buffer -/

/-- No frame is larger than a chunk. -/
def SmallFrames (s : YamuxSession) : Prop :=
  ∀ f ∈ s.outQueue, f.encode.length ≤ defaultChunkCapacity

theorem Frame.length_encode_le {f : Frame} (h : f.payloadLen ≤ defaultChunkCapacity) :
    f.encode.length ≤ defaultChunkCapacity := by
  have hheader : headerLen ≤ defaultChunkCapacity := by decide
  match f with
  | .session (.ping flags code) => simpa [Frame.encode, Frame.header] using hheader
  | .session (.goAway code) => simpa [Frame.encode, Frame.header] using hheader
  | .stream id (.data flags size) => simpa [Frame.encode, Frame.header] using hheader
  | .stream id (.dataChunk chunk) => exact h
  | .stream id (.windowUpdate flags delta) => simpa [Frame.encode, Frame.header] using hheader

theorem Blocks.small {es : List FrameStreamEvent} (h : Blocks es) (id : StreamID) :
    ∀ f ∈ es.map (Frame.stream id), f.encode.length ≤ defaultChunkCapacity := by
  induction h with
  | nil => simp
  | control flags delta _ ih =>
      intro f hf
      rcases List.mem_cons.mp hf with rfl | hf
      · exact Frame.length_encode_le (Nat.zero_le _)
      · exact ih f hf
  | payload _ hle _ ih =>
      intro f hf
      rcases List.mem_cons.mp hf with rfl | hf
      · exact Frame.length_encode_le (Nat.zero_le _)
      · rcases List.mem_cons.mp hf with rfl | hf
        · exact hle
        · exact ih f hf

theorem SessionReachable.smallFrames {isServer : Bool} {maxWriteBuffer : Nat} {guard : Guard}
    {s : YamuxSession} (h : SessionReachable isServer maxWriteBuffer guard s) : SmallFrames s := by
  refine h.invariant_with (fun _ hs => SessionReachable.pairsOk hs) ?_ ?_
  · rintro s rfl f hf
    cases hf
  · intro s s' hp hs hstep
    -- more frames are queued
    have more : ∀ {fs : List Frame}, s'.outQueue = s.outQueue ++ fs →
        (∀ f ∈ fs, f.encode.length ≤ defaultChunkCapacity) → SmallFrames s' := by
      intro fs hqueue hfs f hf
      rw [hqueue] at hf
      rcases List.mem_append.mp hf with hf | hf
      · exact hs f hf
      · exact hfs f hf
    cases hstep with
    | openStream | behave => exact hs
    | close code =>
        refine more rfl fun f hf => ?_
        rw [List.mem_singleton.mp hf]
        exact Frame.length_encode_le (Nat.zero_le _)
    | handle ref op =>
        intro f hf
        rw [YamuxSession.handleOp_frame] at hf
        exact hs f hf
    | poll hpoll =>
        cases hpoll with
        | flush | closeIo | remove => exact hs
        | send hq _ =>
            intro f hf
            apply hs
            rw [hq]
            exact List.mem_cons_of_mem _ hf
        | receive hreceive =>
            obtain ⟨pings, hqueue⟩ := (YamuxSession.receive_inbound hreceive).outQueue
            refine more hqueue fun f hf => ?_
            obtain ⟨ping, -, rfl⟩ := List.mem_map.mp hf
            exact Frame.length_encode_le (Nat.zero_le _)
        | @drain id p hlookup =>
            have hlive := hp.registered id p hlookup
            exact more rfl ((hlive.drained hlive.drain).2.small id)

/-- Unless `poll_ready` reports an error, a frame is only handed over to a buffer
that is empty or below the limit. -/
theorem YamuxTransport.handover_buffered {t t₁ t₂ : YamuxTransport} {out : Frame}
    {ready : Poll (Except YamuxTransportError Unit)} (hw : t.writer.buffer.Wf)
    (hclean : isError ready = false) (hsmall : out.encode.length ≤ defaultChunkCapacity)
    (hready : t.pollReady = some (ready, t₁)) (hr : ready.isReady = true)
    (hsend : t₁.startSend out = some t₂) :
    t₂.writer.buffer.Wf ∧ t₂.maxWriterBuffer = t.maxWriterBuffer ∧
      t₂.stream.writes <:+ t.stream.writes ∧
      t₂.buffered.length ≤ t.maxWriterBuffer + defaultChunkCapacity := by
  obtain ⟨ready', result, t₁', hready', hflush, hpending, hsame⟩ := pollReady_spec hw
  cases hready'.symm.trans hready
  obtain ⟨t₂', hsend', hw₂, hb₂, heq₂⟩ := startSend_spec hflush.wf out
  cases hsend'.symm.trans hsend
  -- there was room, or nothing was left
  have hroom : t₁.buffered.length ≤ t.maxWriterBuffer := by
    rcases result with - | e | u
    · refine Nat.le_of_lt (Nat.lt_of_not_le fun hfull => ?_)
      rw [hpending.mpr ⟨rfl, hfull⟩] at hr
      cases hr
    · rw [hsame _ rfl] at hclean
      cases hclean
    · rw [hflush.flushed.done rfl]
      exact Nat.zero_le _
  refine ⟨hw₂, by rw [heq₂]; exact hflush.maxWriterBuffer, ?_, ?_⟩
  · rw [heq₂]
    exact hflush.flushed.writes
  · rw [hb₂, List.length_append]
    exact Nat.add_le_add hroom hsmall

theorem YamuxSession.sendLoop_buffered {queue : List Frame} {t t' : YamuxTransport}
    {rest : List Frame} {sent sent' : Bool} (hw : t.writer.buffer.Wf)
    (hclean : ∀ x ∈ takings t queue, YamuxTransport.isError x.ready = false)
    (hsmall : ∀ f ∈ queue, f.encode.length ≤ defaultChunkCapacity)
    (ht : t.buffered.length ≤ t.maxWriterBuffer + defaultChunkCapacity)
    (h : sendLoop t sent queue = some (t', rest, sent')) :
    t'.buffered.length ≤ t.maxWriterBuffer + defaultChunkCapacity := by
  induction queue generalizing t sent with
  | nil =>
      obtain ⟨rfl, -⟩ := Prod.mk.inj (Option.some.inj h)
      exact ht
  | cons out queue ih =>
      obtain ⟨⟨ready, t₁⟩, hready, h⟩ := Option.bind_eq_some_iff.mp h
      cases hr : ready.isReady with
      | false =>
          simp only [hr] at h
          cases h
          obtain ⟨ready', result, t₁', hready', hflush, -⟩ := YamuxTransport.pollReady_spec hw
          cases hready'.symm.trans hready
          exact Nat.le_trans hflush.flushed.shorter.length_le ht
      | true =>
          simp only [hr, if_true] at h
          obtain ⟨t₂, hsend, h⟩ := Option.bind_eq_some_iff.mp h
          simp only [takings, hready, hr, if_true, hsend, List.forall_mem_cons] at hclean
          obtain ⟨hw₂, hmax₂, -, hb₂⟩ := YamuxTransport.handover_buffered hw hclean.1
            (hsmall out List.mem_cons_self) hready hr hsend
          rw [← hmax₂] at hb₂ ⊢
          exact ih hw₂ hclean.2 (fun f hf => hsmall f (List.mem_cons_of_mem _ hf)) hb₂ h

/-! ### What the heads give -/

/-- The bytes that wait in the channel, if the head has the window to take them. -/
def StreamPair.takeable (p : StreamPair) : Nat :=
  if defaultChunkCapacity ≤ p.head.window.send then p.up.queue.flatten.length else 0

/-- Without the window for a chunk, a head yields only what it has put out before. -/
theorem YamuxSession.drainHead_shut {p : StreamPair}
    (hshut : ¬ defaultChunkCapacity ≤ p.head.window.send) (fuel : Nat) :
    (drainHead fuel p).1 <+: p.head.outs := by
  induction fuel generalizing p with
  | zero => exact List.nil_prefix
  | succ fuel ih =>
      have hrx : p.head.drainRx p.up.senderOpen p.up.queue = (p.head, p.up.queue) := by
        cases p.up.queue <;> simp [YamuxStreamHead.drainRx, hshut]
      cases houts : p.head.outs with
      | cons e rest =>
          have hrest := ih (p := { p with
            head := { p.head with outs := rest }, emitted := p.emitted ++ [e] }) hshut
          simp only [drainHead, StreamPair.pollNext, YamuxStreamHead.pollNext, houts]
          exact List.cons_prefix_cons.mpr ⟨rfl, hrest⟩
      | nil =>
          simp only [drainHead, StreamPair.pollNext, YamuxStreamHead.pollNext, houts, hrx]
          cases p.head.state.isClosed <;> exact List.nil_prefix

/-- Draining a head yields no more than what is waiting. -/
theorem Live.drain_waiting {id : StreamID} {p : StreamPair} (h : Live id p) :
    (payloadOf (YamuxSession.drainHead (YamuxSession.drainWork p) p).1).length ≤
      p.up.queue.flatten.length := by
  obtain ⟨opened, hreach⟩ := h.reach
  have hdrain := h.drain
  generalize YamuxSession.drainHead (YamuxSession.drainWork p) p = drained at hdrain
  obtain ⟨events, closed, q⟩ := drained
  have hreach' : PairReachable opened id q := hreach.steps hdrain.steps
  have hemitted : q.emitted = p.emitted ++ events := hdrain.emitted
  have houts : q.head.outs = [] := hdrain.outs
  have hhandle : q.handle = p.handle := hdrain.handle
  -- what was written is the same before and after
  have hbefore := hreach.writtenInv.all h.alive
  have hafter := hreach'.writtenInv.all (by rw [hdrain.alive]; exact h.alive)
  simp only [StreamPair.history, hemitted, houts, payloadOf_append, List.append_nil] at hafter
  rw [hhandle, ← hbefore, StreamPair.history, payloadOf_append, h.control, List.append_nil,
    List.append_assoc, List.append_cancel_left_eq] at hafter
  have hlen := congrArg List.length hafter
  rw [List.length_append] at hlen
  show (payloadOf events).length ≤ _
  omega

/-- So it yields no more than it may take. -/
theorem Live.drain_payload {id : StreamID} {p : StreamPair} (h : Live id p) :
    (payloadOf (YamuxSession.drainHead (YamuxSession.drainWork p) p).1).length ≤ p.takeable := by
  rw [StreamPair.takeable]
  split
  · exact h.drain_waiting
  · rename_i hshut
    obtain ⟨later, houts⟩ := YamuxSession.drainHead_shut hshut (YamuxSession.drainWork p)
    have hcontrol := h.control
    rw [← houts, payloadOf_append, List.append_eq_nil_iff] at hcontrol
    exact Nat.le_of_eq (List.length_eq_zero_iff.mpr hcontrol.1)

namespace YamuxSession

variable {s : YamuxSession}

/-- The bytes that the head of a stream may take. -/
def takeable (s : YamuxSession) (id : StreamID) : Nat :=
  (s.streams.lookup id).elim 0 StreamPair.takeable

theorem block_payload (hp : PairsOk s) (id : StreamID) :
    payloadOn id (s.block id) ≤ s.takeable id := by
  rw [block, takeable]
  cases hlookup : s.streams.lookup id with
  | none => exact Nat.zero_le _
  | some p =>
      show payloadOn id ((drainHead (drainWork p) p).1.map (Frame.stream id)) ≤ _
      rw [payloadOn_eq, eventsOn_map]
      exact (hp.registered id p hlookup).drain_payload

/-- Draining the heads queues no more of a stream than its head may take. -/
theorem drainHeads_payload (hp : PairsOk s) {order : List StreamID} (hnodup : order.Nodup) :
    ∃ fs, (s.drainHeads order).1.outQueue = s.outQueue ++ fs ∧
      (∀ id, payloadOn id fs ≤ s.takeable id) ∧
      (∀ id, payloadOn id fs ≠ 0 → id ∈ order ∧ id ∈ s.streams) ∧
      ∀ id, id ∈ s.streams → id ∈ (s.drainHeads order).1.streams := by
  have hon : ∀ id, payloadOn id (order.flatMap s.block) =
      if id ∈ order then payloadOn id (s.block id) else 0 := by
    intro id
    rw [payloadOn_eq, eventsOn_blocks hnodup, payloadOn_eq]
    split <;> rfl
  refine ⟨order.flatMap s.block, (drainHeads_spec hnodup).outQueue, ?_, ?_, ?_⟩
  · intro id
    rw [hon]
    split
    · exact block_payload hp id
    · exact Nat.zero_le _
  · intro id hne
    rw [hon] at hne
    split at hne
    · rename_i hid
      refine ⟨hid, ?_⟩
      by_contra hnot
      rw [block, Finmap.lookup_eq_none.mpr hnot] at hne
      exact hne rfl
    · exact absurd rfl hne
  · exact fun id => mem_drainHeads.mpr

theorem removeAll_mem (ids : List StreamID) {id : StreamID} (hid : id ∈ s.streams)
    (hnot : id ∉ ids) : id ∈ (ids.foldl removeStream s).streams := by
  induction ids generalizing s with
  | nil => exact hid
  | cons id' ids ih =>
      have hne : id ≠ id' := fun h => hnot (h ▸ List.mem_cons_self)
      apply ih
      · exact Finmap.mem_erase.mpr ⟨hne, hid⟩
      · exact fun h => hnot (List.mem_cons_of_mem _ h)

theorem trySend_buffered {s₁ : YamuxSession} {sent sent' : Bool} (hw : s.Wf)
    (hclean : ∀ x ∈ takings s.transport s.outQueue, YamuxTransport.isError x.ready = false)
    (hsmall : SmallFrames s)
    (hs : s.transport.buffered.length ≤ s.transport.maxWriterBuffer + defaultChunkCapacity)
    (h : s.trySend sent = some (s₁, sent')) :
    s₁.transport.buffered.length ≤ s.transport.maxWriterBuffer + defaultChunkCapacity := by
  obtain ⟨⟨t, rest, sent₁⟩, hloop, heq⟩ := Option.bind_eq_some_iff.mp h
  cases heq
  exact sendLoop_buffered hw.writer hclean hsmall hs hloop

end YamuxSession

/-! ### The bound -/

/-- Of each stream, what stays queued in the first send loop, and what its head
may take when `fs` have arrived, come to at most two chunks. -/
def Fitting (s : YamuxSession) (order : List StreamID) (fs : List Frame) : Prop :=
  ∀ id ∈ order, payloadOn id s.firstRound.rest +
    (s.informed fs id).elim 0 StreamPair.takeable ≤ 2 * defaultChunkCapacity

/-- Of a stream that comes to its end, nothing stays queued in the second send
loop. -/
def EndsSent (s : YamuxSession) (order : List StreamID) (fs : List Frame) : Prop :=
  ∀ id ∈ order, s.reportsEnd fs id = true →
    payloadOn id (s.secondRound (s.upcoming fs order)).rest = 0

instance (s : YamuxSession) (order : List StreamID) (fs : List Frame) :
    Decidable (Fitting s order fs) :=
  List.decidableBAll _ order

instance (s : YamuxSession) (order : List StreamID) (fs : List Frame) :
    Decidable (EndsSent s order fs) :=
  List.decidableBAll _ order

/-- A call of `poll_next` that holds no more than it should: no error is met while
frames are handed over, and if it goes on to the heads, there is room for what
they have, and no stream is forgotten too early. -/
structure Paced (s : YamuxSession) (order : List StreamID) : Prop where
  noErrors : ¬ s.LoopError order
  heads : s.manualClose = false → ∀ fs ∈ s.arriving, Fitting s order fs ∧ EndsSent s order fs

instance (s : YamuxSession) (order : List StreamID) : Decidable (Paced s order) :=
  decidable_of_iff (¬ s.LoopError order ∧
      (s.manualClose = false → ∀ fs ∈ s.arriving, Fitting s order fs ∧ EndsSent s order fs))
    ⟨fun h => ⟨h.1, h.2⟩, fun h => ⟨h.noErrors, h.heads⟩⟩

/-- All calls of `poll_next` are like this. -/
def paced : Guard := fun s m =>
  match m with
  | .poll writes reads closes order => Paced (s.behave writes reads closes) order
  | _ => True

instance (s : YamuxSession) (m : Move) : Decidable (paced s m) :=
  match m with
  | .poll writes reads closes order =>
      inferInstanceAs (Decidable (Paced (s.behave writes reads closes) order))
  | .openStream | .close _ | .handle _ _ => isTrue trivial

/-- The write buffer is within the limit and one chunk; at most two chunks are
queued of each stream, and only of registered ones. -/
structure Bounded (maxWriteBuffer : Nat) (s : YamuxSession) : Prop where
  limit : s.transport.maxWriterBuffer = maxWriteBuffer
  buffered : s.transport.buffered.length ≤ maxWriteBuffer + defaultChunkCapacity
  each : ∀ id, payloadOn id s.outQueue ≤ 2 * defaultChunkCapacity
  registered : ∀ id, payloadOn id s.outQueue ≠ 0 → id ∈ s.streams

namespace Bounded

open YamuxSession

variable {maxWriteBuffer : Nat} {s s' : YamuxSession}

/-- Less is queued, and no stream is forgotten. -/
theorem of_le (h : Bounded maxWriteBuffer s)
    (hlimit : s'.transport.maxWriterBuffer = s.transport.maxWriterBuffer)
    (hbuffered : s'.transport.buffered.length ≤ maxWriteBuffer + defaultChunkCapacity)
    (hqueue : ∀ id, payloadOn id s'.outQueue ≤ payloadOn id s.outQueue)
    (hstreams : ∀ id, id ∈ s.streams → id ∈ s'.streams) : Bounded maxWriteBuffer s' := by
  refine ⟨hlimit.trans h.limit, hbuffered, fun id => (hqueue id).trans (h.each id), ?_⟩
  intro id hid
  apply hstreams
  apply h.registered
  have hle := hqueue id
  omega

/-- The buffer is flushed. -/
theorem flush (h : Bounded maxWriteBuffer s) {result} {t : YamuxTransport}
    (hflush : YamuxTransport.Flush result s.transport t) :
    Bounded maxWriteBuffer { s with transport := t } := by
  refine h.of_le ?_ (hflush.flushed.shorter.length_le.trans h.buffered) (fun _ => Nat.le_refl _)
    fun _ h => h
  exact hflush.maxWriterBuffer

/-- Frames are handed over. -/
theorem send (h : Bounded maxWriteBuffer s) (hw : s.Wf)
    (hclean : ∀ x ∈ takings s.transport s.outQueue, YamuxTransport.isError x.ready = false)
    (hsmall : SmallFrames s)
    {t : YamuxTransport} {done rest : List Frame} {sent sent' : Bool}
    (hsend : s.trySend sent = some ({ s with transport := t, outQueue := rest }, sent'))
    (hsplit : s.outQueue = done ++ rest) (hrun : SendRun s.transport done t rest) :
    Bounded maxWriteBuffer { s with transport := t, outQueue := rest } := by
  have hbuffered := trySend_buffered hw hclean hsmall (by rw [h.limit]; exact h.buffered) hsend
  rw [h.limit] at hbuffered
  refine h.of_le hrun.maxWriterBuffer hbuffered ?_ fun _ h => h
  intro id
  rw [hsplit, payloadOn_append]
  exact Nat.le_add_left _ _

/-- Inbound frames queue no payload. -/
theorem inbound (h : Bounded maxWriteBuffer s) (hin : Inbound s s') :
    Bounded maxWriteBuffer s' := by
  obtain ⟨pings, hqueue⟩ := hin.outQueue
  refine h.of_le hin.maxWriterBuffer ?_ ?_ hin.streams
  · rw [YamuxTransport.buffered, hin.writer]
    exact h.buffered
  · intro id
    have hpings := payloadOn_le id (pings.map fun ping => Frame.session (.ping ping.1 ping.2))
    rw [queuedPayload_pings] at hpings
    rw [hqueue, payloadOn_append]
    omega

/-- After draining, when what was queued of a stream and what its head may take
come to two chunks. -/
theorem drained (h : Bounded maxWriteBuffer s) {queue fs : List Frame} {order : List StreamID}
    (hqueue : queue = s.outQueue ++ fs) (hle : ∀ id, payloadOn id fs ≤ s.takeable id)
    (hmem : ∀ id, payloadOn id fs ≠ 0 → id ∈ order ∧ id ∈ s.streams)
    (htakes : ∀ id ∈ order,
      payloadOn id s.outQueue + s.takeable id ≤ 2 * defaultChunkCapacity) (id : StreamID) :
    payloadOn id queue ≤ 2 * defaultChunkCapacity ∧ (payloadOn id queue ≠ 0 → id ∈ s.streams) := by
  rw [hqueue, payloadOn_append]
  by_cases hzero : payloadOn id fs = 0
  · rw [hzero, Nat.add_zero]
    exact ⟨h.each id, h.registered id⟩
  · obtain ⟨horder, hid⟩ := hmem id hzero
    exact ⟨Nat.le_trans (Nat.add_le_add_left (hle id) _) (htakes id horder), fun _ => hid⟩

/-- The heads are drained, the streams that are over forgotten, and frames
handed over. -/
theorem drainSend {isServer : Bool} {guard : Guard} (h : Bounded maxWriteBuffer s)
    (hreach : SessionReachable isServer maxWriteBuffer guard s) {order : List StreamID}
    (hnodup : order.Nodup)
    (htakes : ∀ id ∈ order,
      payloadOn id s.outQueue + s.takeable id ≤ 2 * defaultChunkCapacity)
    (hclean : ∀ x ∈ takings (s.drainAll order).transport (s.drainAll order).outQueue,
      YamuxTransport.isError x.ready = false)
    {t : YamuxTransport} {done rest : List Frame} {sent sent' : Bool}
    (hsend : (s.drainAll order).trySend sent =
      some ({ s.drainAll order with transport := t, outQueue := rest }, sent'))
    (hsplit : (s.drainAll order).outQueue = done ++ rest)
    (hrun : SendRun (s.drainAll order).transport done t rest)
    (hforgets : ∀ id ∈ (s.drainHeads order).2, payloadOn id rest = 0) :
    Bounded maxWriteBuffer { s.drainAll order with transport := t, outQueue := rest } := by
  obtain ⟨htransport, -, -⟩ := s.drainAll_frame order
  obtain ⟨fs, hheads, hle, hmem, hkeys⟩ := drainHeads_payload hreach.pairsOk hnodup
  have hreach' := hreach.pollSteps (s.drainAll_steps order)
  have hqueue : (s.drainAll order).outQueue = s.outQueue ++ fs :=
    (removeAll_frame _).2.2.trans hheads
  have hdrained := h.drained hqueue hle hmem htakes
  have hrest : ∀ id, payloadOn id rest ≤ payloadOn id (s.drainAll order).outQueue := by
    intro id
    rw [hsplit, payloadOn_append]
    exact Nat.le_add_left _ _
  have hlimit : (s.drainAll order).transport.maxWriterBuffer = maxWriteBuffer := by
    rw [htransport]
    exact h.limit
  have hbuffered := trySend_buffered hreach'.wf hclean hreach'.smallFrames
    (by rw [hlimit, htransport]; exact h.buffered) hsend
  rw [hlimit] at hbuffered
  refine ⟨hrun.maxWriterBuffer.trans hlimit, hbuffered,
    fun id => (hrest id).trans (hdrained id).1, fun id hne => ?_⟩
  -- the stream is still registered: one forgotten has no payload left
  have hid : id ∈ s.streams := by
    apply (hdrained id).2
    intro hzero
    have hle' := hrest id
    rw [hzero] at hle'
    exact hne (Nat.le_zero.mp hle')
  apply removeAll_mem _ (hkeys id hid)
  intro hforgotten
  exact hne (hforgets id hforgotten)

/-- The loops of a call meet no error. -/
theorem takings_clean {order : List StreamID} {ts ts' : List Taking}
    (h : ∀ x ∈ s.pollTakings order, x.isClean = true) (heq : s.pollTakings order = ts ++ ts') :
    (∀ x ∈ ts, YamuxTransport.isError x.ready = false) ∧
      ∀ x ∈ ts', YamuxTransport.isError x.ready = false := by
  have hclean : ∀ x ∈ ts ++ ts', YamuxTransport.isError x.ready = false := by
    intro x hx
    have hx' := h x (heq ▸ hx)
    rw [Taking.isClean, Bool.and_eq_true, Bool.not_eq_true'] at hx'
    exact hx'.1
  exact ⟨fun x hx => hclean x (List.mem_append_left _ hx),
    fun x hx => hclean x (List.mem_append_right _ hx)⟩

/-- One call of `poll_next`. -/
theorem pollNext {isServer : Bool} {guard : Guard} (h : Bounded maxWriteBuffer s)
    (hreach : SessionReachable isServer maxWriteBuffer guard s)
    (hp : s.transport.writer.buffer.Packed) (hcalls : s.transport.failed = false)
    {order : List StreamID} (hnodup : order.Nodup) (hpaced : Paced s order)
    {answer : Poll (Option YamuxStream)}
    (hpoll : s.pollNext order = some (answer, s')) : Bounded maxWriteBuffer s' := by
  have hw := hreach.wf
  have hclean := (pollTakings_iff hw hp hnodup hcalls).mpr hpaced.noErrors
  have hfirst : ∀ {t done rest}, Sending s false t done rest →
      Bounded maxWriteBuffer { s with transport := t, outQueue := rest } := fun hsend =>
    h.send hw (takings_clean hclean rfl).1 hreach.smallFrames hsend.send hsend.split hsend.run
  cases s.course hw order with
  | closing hsend _ hclosing =>
      obtain ⟨result, t', -, hflush, hclosed⟩ := pollClosing_spec hsend.wf
      have h₂ := (hfirst hsend).flush hflush
      rw [hclosing, hclosed] at hpoll
      rcases result with - | e | u
      · obtain rfl := (Prod.mk.inj (Option.some.inj hpoll)).2
        exact h₂
      · obtain rfl := (Prod.mk.inj (Option.some.inj hpoll)).2
        exact h₂
      · obtain rfl := (Prod.mk.inj (Option.some.inj hpoll)).2
        exact h₂.of_le rfl h₂.buffered (fun _ => Nat.le_refl _) fun _ h => h
  | answered hsend _ hread hanswer =>
      obtain rfl := (Prod.mk.inj (Option.some.inj (hanswer.symm.trans hpoll))).2
      exact (hfirst hsend).inbound hread.inbound
  | @drained t t' done rest done' rest' s₂ hsend hclose hread hsend' hflushed =>
      have h₂ := (hfirst hsend).inbound hread.inbound
      have hreach₂ := (hreach.pollSteps hsend.steps).pollSteps hread.steps
      obtain ⟨fs, hfs, -, hclosed, hlookup⟩ := hsend.upcoming hread hnodup
      obtain ⟨fs', hfs', -, hround⟩ := hsend.second hw hp hread hnodup hsend'
      cases hfs.symm.trans hfs'
      -- pings carry no payload
      have htakes : ∀ id ∈ order,
          payloadOn id s₂.outQueue + s₂.takeable id ≤ 2 * defaultChunkCapacity := by
        intro id hid
        obtain ⟨pings, hpings⟩ := hread.inbound.outQueue
        have hnone := payloadOn_le id (pings.map fun ping => Frame.session (.ping ping.1 ping.2))
        rw [queuedPayload_pings] at hnone
        have hbound := (hpaced.heads hclose fs hfs).1 id hid
        rw [(hsend.first hw hp).rest] at hbound
        rw [hpings, payloadOn_append, takeable, hlookup id, Nat.le_zero.mp hnone, Nat.add_zero]
        exact hbound
      have hforgets : ∀ id ∈ (s₂.drainHeads order).2, payloadOn id rest' = 0 := by
        intro id hid
        rw [hclosed, List.mem_filter] at hid
        rw [← hround.rest]
        exact (hpaced.heads hclose fs hfs).2 id hid.1 hid.2
      have hclean' := (takings_clean hclean (pollTakings_drain hsend.send hclose hread.loop)).2
      have h₄ := h₂.drainSend hreach₂ hnodup htakes hclean' hsend'.send hsend'.split hsend'.run
        hforgets
      rw [hflushed] at hpoll
      cases hsent : (false || !done.isEmpty) || !done'.isEmpty with
      | false =>
          rw [hsent] at hpoll
          obtain rfl := (Prod.mk.inj (Option.some.inj hpoll)).2
          exact h₄
      | true =>
          obtain ⟨result, t₅, -, hflush, hlast⟩ := flushSent_spec hsend'.wf
          rw [hsent, hlast] at hpoll
          have h₅ := h₄.flush hflush
          rcases result with - | e | u <;>
            · obtain rfl := (Prod.mk.inj (Option.some.inj hpoll)).2
              exact h₅

/-- All queued payload is counted at some registered stream. -/
theorem total (h : Bounded maxWriteBuffer s) :
    queuedPayload s.outQueue + s.transport.buffered.length ≤
      maxWriteBuffer + 2 * defaultChunkCapacity * (1 + s.streams.keys.card) := by
  have hsum := queuedPayload_le_sum s.outQueue s.streams.keys fun id hid =>
    Finmap.mem_keys.mpr (h.registered id hid)
  have hcard : ∑ id ∈ s.streams.keys, payloadOn id s.outQueue ≤
      s.streams.keys.card * (2 * defaultChunkCapacity) :=
    (Finset.sum_le_card_nsmul _ _ _ fun id _ => h.each id).trans (le_of_eq rfl)
  have hbuffered := h.buffered
  rw [Nat.mul_add, Nat.mul_comm (2 * defaultChunkCapacity) s.streams.keys.card]
  omega

end Bounded

/-- The I/O object takes nothing; five bytes are written to a stream, in two
writes, and the session is polled after each. -/
def blockedWrites : List Move :=
  [.openStream, .handle (.registered ⟨1⟩) (.write [1, 2, 3]), .poll [] [] [] [⟨1⟩],
    .handle (.registered ⟨1⟩) (.write [4, 5]), .poll [.pending] [] [] [⟨1⟩]]

/-- Two full chunks are written, and the session is polled. -/
def writeAndPoll : List Move :=
  let full : Bytes := List.replicate defaultChunkCapacity 0
  [.handle (.registered ⟨1⟩) (.write full), .handle (.registered ⟨1⟩) (.write full),
    .poll [] [] [] [⟨1⟩]]

end YamuxLowMem
