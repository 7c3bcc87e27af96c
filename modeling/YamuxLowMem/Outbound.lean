/-
YamuxLowMem/Outbound.lean

What a session sends is well formed.

`start_send` writes frames into the buffer directly and does not go through
`FrameWriter::write`, which would check that a data header is followed by its
payload.  In every run the frames sent and queued would pass that check, and
the bytes taken by the I/O object with the bytes still buffered are the
encodings of the frames sent.
-/
import YamuxLowMem.SessionRun

namespace YamuxLowMem

open Async

/-! ### Frame sequences a validating writer accepts -/

/-- Every data header is followed at once by one chunk of the same stream, of
the length it announces. -/
inductive FrameBlocks : List Frame → Prop where
  | nil : FrameBlocks []
  | session (event : FrameSessionEvent) {fs : List Frame} :
      FrameBlocks fs → FrameBlocks (.session event :: fs)
  | window (id : StreamID) (flags : Flags) (delta : UInt32) {fs : List Frame} :
      FrameBlocks fs → FrameBlocks (.stream id (.windowUpdate flags delta) :: fs)
  | payload (id : StreamID) (flags : Flags) {size : UInt32} {chunk : Bytes} {fs : List Frame} :
      size.toNat = chunk.length → FrameBlocks fs →
      FrameBlocks (.stream id (.data flags size) :: .stream id (.dataChunk chunk) :: fs)

namespace FrameBlocks

variable {fs fs' : List Frame}

theorem append (h : FrameBlocks fs) (h' : FrameBlocks fs') : FrameBlocks (fs ++ fs') := by
  induction h with
  | nil => exact h'
  | session event _ ih => exact .session event ih
  | window id flags delta _ ih => exact .window id flags delta ih
  | payload id flags hsize _ ih => exact .payload id flags hsize ih

/-- The events of one stream, as frames. -/
theorem of_blocks (id : StreamID) {es : List FrameStreamEvent} (h : Blocks es) :
    FrameBlocks (es.map (Frame.stream id)) := by
  induction h with
  | nil => exact .nil
  | control flags delta _ ih => exact .window id flags delta ih
  | payload _ hle _ ih =>
      refine .payload id _ ?_ ih
      exact UInt32.toNat_ofNat_of_lt' (Nat.lt_of_le_of_lt hle (by decide))

theorem pings (codes : List (Flags × UInt32)) :
    FrameBlocks (codes.map fun ping => Frame.session (.ping ping.1 ping.2)) := by
  induction codes with
  | nil => exact .nil
  | cons ping codes ih => exact .session _ ih

end FrameBlocks

namespace FrameWriter

/-- Hand over a sequence of frames; the first error ends it. -/
def writeAll {W : Type} [ChunkBufferWriter W] (w : FrameWriter W) :
    List Frame → Option (Except FrameWriterError Unit × FrameWriter W)
  | [] => some (.ok (), w)
  | frame :: frames => do
      match ← w.write frame with
      | (.ok (), w) => w.writeAll frames
      | (.error e, w) => return (.error e, w)

variable {w : FrameWriter ChainedChunkBufferWriter}

/-- A frame that is due is accepted. -/
theorem write_of_track {frame : Frame} {pending : Option PendingPayload} (hw : w.buffer.Wf)
    (htrack : track w.pending frame = .ok pending) :
    ∃ b, w.write frame = some (.ok (), { pending := pending, buffer := b }) ∧ b.Wf ∧
      b.bytes = w.buffer.bytes ++ frame.encode := by
  obtain ⟨b, hwrite, hwf, hbytes⟩ := Frame.write_spec frame (w := w.buffer) hw
  exact ⟨b, by simp [write, htrack, hwrite], hwf, hbytes⟩

/-- Between payloads, the writer accepts whole blocks, and writes the encodings
of the frames. -/
theorem writeAll_of_blocks {fs : List Frame} (h : FrameBlocks fs) (hw : w.buffer.Wf)
    (hpending : w.pending = none) :
    ∃ w', w.writeAll fs = some (.ok (), w') ∧ w'.pending = none ∧
      w'.buffer.bytes = w.buffer.bytes ++ encoding fs := by
  induction h generalizing w with
  | nil => exact ⟨w, rfl, hpending, by rw [encoding_nil, List.append_nil]⟩
  | @session event fs _ ih =>
      have htrack : track w.pending (.session event) = .ok none := by
        rw [hpending]
        rfl
      obtain ⟨b, hwrite, hwf, hbytes⟩ := write_of_track hw htrack
      obtain ⟨w', hall, hnone, hbytes'⟩ := ih (w := { pending := none, buffer := b }) hwf rfl
      refine ⟨w', by simp [writeAll, hwrite, hall], hnone, ?_⟩
      rw [hbytes', hbytes, encoding_cons, List.append_assoc]
  | @window id flags delta fs _ ih =>
      have htrack : track w.pending (.stream id (.windowUpdate flags delta)) = .ok none := by
        rw [hpending]
        rfl
      obtain ⟨b, hwrite, hwf, hbytes⟩ := write_of_track hw htrack
      obtain ⟨w', hall, hnone, hbytes'⟩ := ih (w := { pending := none, buffer := b }) hwf rfl
      refine ⟨w', by simp [writeAll, hwrite, hall], hnone, ?_⟩
      rw [hbytes', hbytes, encoding_cons, List.append_assoc]
  | @payload id flags size chunk fs hsize _ ih =>
      have htrack : track w.pending (.stream id (.data flags size)) =
          .ok (some { streamId := id, remain := size.toNat }) := by
        rw [hpending]
        rfl
      obtain ⟨b, hwrite, hwf, hbytes⟩ := write_of_track hw htrack
      -- the chunk is exactly what is due now
      have htrack' : track (some { streamId := id, remain := size.toNat })
          (.stream id (.dataChunk chunk)) = .ok none := by
        simp [track, hsize]
      obtain ⟨b', hwrite', hwf', hbytes'⟩ :=
        write_of_track (w := { pending := _, buffer := b }) hwf htrack'
      obtain ⟨w', hall, hnone, hbytes''⟩ :=
        ih (w := { pending := none, buffer := b' }) hwf' rfl
      refine ⟨w', by simp [writeAll, hwrite, hwrite', hall], hnone, ?_⟩
      rw [hbytes'', hbytes']
      show b.bytes ++ _ ++ _ = _
      rw [hbytes, encoding_cons, encoding_cons]
      simp only [List.append_assoc]

end FrameWriter

/-! ### The invariant -/

/-- What has been sent and what is queued is well formed, and the bytes that
have left are the encodings of the frames sent. -/
structure Outbound (s : YamuxSession) : Prop where
  wellFormed : FrameBlocks (s.transport.sent ++ s.outQueue)
  bytes : s.transport.stream.accepted ++ s.transport.buffered = encoding s.transport.sent

namespace Outbound

variable {s s' : YamuxSession}

/-- More frames are queued. -/
theorem queue (h : Outbound s) {fs : List Frame} (hfs : FrameBlocks fs)
    (htransport : s'.transport = s.transport) (hqueue : s'.outQueue = s.outQueue ++ fs) :
    Outbound s' := by
  constructor
  · rw [htransport, hqueue, ← List.append_assoc]
    exact h.wellFormed.append hfs
  · rw [htransport]
    exact h.bytes

/-- Nothing is sent or queued. -/
theorem congr (h : Outbound s) (hsent : s'.transport.sent = s.transport.sent)
    (hqueue : s'.outQueue = s.outQueue)
    (hbytes : s'.transport.stream.accepted ++ s'.transport.buffered =
      s.transport.stream.accepted ++ s.transport.buffered) : Outbound s' := by
  constructor
  · rw [hsent, hqueue]
    exact h.wellFormed
  · rw [hbytes, hsent]
    exact h.bytes

end Outbound

theorem PollStep.outbound {s s' : YamuxSession} (h : PollStep s s') (hw : s.Wf) (hp : PairsOk s)
    (ho : Outbound s) : Outbound s' := by
  cases h with
  | @flush t result hflush =>
      exact ho.congr hflush.sent rfl hflush.flushed.conserved
  | @send t out rest hq hsend =>
      obtain ⟨t', hsend', -, hbuffered, heq⟩ := YamuxTransport.startSend_spec hw.writer out
      obtain rfl : t = t' := Option.some.inj (hsend.symm.trans hsend')
      have hsent : t.sent = s.transport.sent ++ [out] := by rw [heq]
      have hstream : t.stream = s.transport.stream := by rw [heq]
      constructor
      · show FrameBlocks (t.sent ++ rest)
        rw [hsent, List.append_assoc, List.singleton_append, ← hq]
        exact ho.wellFormed
      · show t.stream.accepted ++ t.buffered = encoding t.sent
        rw [hstream, hbuffered, ← List.append_assoc, ho.bytes, hsent, encoding_append]
        simp
  | closeIo =>
      have haccepted : s.transport.stream.pollClose.2.accepted = s.transport.stream.accepted := by
        simp only [Io.pollClose]
        split <;> rfl
      refine ho.congr rfl rfl ?_
      show s.transport.stream.pollClose.2.accepted ++ s.transport.buffered = _
      rw [haccepted]
  | receive hreceive =>
      -- receiving queues nothing but answers to pings
      have hin := YamuxSession.receive_inbound hreceive
      obtain ⟨pings, hqueue⟩ := hin.outQueue
      constructor
      · rw [hin.sent, hqueue, ← List.append_assoc]
        exact ho.wellFormed.append (.pings pings)
      · rw [hin.accepted, YamuxTransport.buffered, hin.writer, hin.sent]
        exact ho.bytes
  | @drain id p hlookup =>
      have hlive := hp.registered id p hlookup
      exact ho.queue (.of_blocks id (hlive.drained hlive.drain).2) rfl rfl
  | remove id => exact ho.congr rfl rfl rfl

theorem SessionStep.outbound {guard : Guard} {s s' : YamuxSession} (h : SessionStep guard s s')
    (hw : s.Wf) (hp : PairsOk s) (ho : Outbound s) : Outbound s' := by
  cases h with
  | openStream | behave => exact ho.congr rfl rfl rfl
  | close code => exact ho.queue (.session (.goAway code) .nil) rfl rfl
  | handle ref op =>
      apply ho.congr
      · rw [handleOp_transport]
      · rw [YamuxSession.handleOp_frame]
      · rw [handleOp_transport]
  | poll hpoll => exact hpoll.outbound hw hp ho

theorem SessionReachable.outbound {isServer : Bool} {maxWriteBuffer : Nat} {guard : Guard}
    {s : YamuxSession} (h : SessionReachable isServer maxWriteBuffer guard s) : Outbound s := by
  have hboth : ∀ s, SessionReachable isServer maxWriteBuffer guard s → s.Wf ∧ PairsOk s :=
    fun _ hs => ⟨SessionReachable.wf hs, SessionReachable.pairsOk hs⟩
  refine h.invariant_with hboth ?_ ?_
  · rintro s rfl
    exact ⟨.nil, rfl⟩
  · rintro s s' ⟨hw, hp⟩ ho hstep
    exact hstep.outbound hw hp ho

/-! ### The wire -/

/-- In every run: the frames sent and still queued come in blocks, and a fresh
validating writer accepts all of them; the bytes taken by the I/O object with
the bytes in the write buffer are the encodings of the frames sent. -/
theorem outbound_well_formed {isServer : Bool} {maxWriteBuffer : Nat} {s : YamuxSession}
    (h : (sessionMachine isServer maxWriteBuffer anything).Reachable s) :
    FrameBlocks (s.transport.sent ++ s.outQueue) ∧
      (∃ w, (FrameWriter.new ChainedChunkBufferWriter.new).writeAll
          (s.transport.sent ++ s.outQueue) = some (.ok (), w) ∧ w.pending = none) ∧
      s.transport.stream.accepted ++ s.transport.writer.buffer.bytes =
        encoding s.transport.sent := by
  have ho := (sessionMachine_reachable h).outbound
  refine ⟨ho.wellFormed, ?_, ho.bytes⟩
  obtain ⟨w, hall, hnone, -⟩ :=
    FrameWriter.writeAll_of_blocks (w := FrameWriter.new ChainedChunkBufferWriter.new)
      ho.wellFormed ChainedChunkBufferWriter.wf_new rfl
  exact ⟨w, hall, hnone⟩

/-- A stream is opened and written to twice.  The I/O object takes the first
frame, the header of the first payload and one of its two bytes; the second
payload waits in the queue. -/
def writtenTwice : List Move :=
  [.openStream, .handle (.registered ⟨1⟩) (.write [104, 105]),
    .poll [.ready (.ok 12), .ready (.ok 12), .ready (.ok 1)] [] [] [⟨1⟩],
    .handle (.registered ⟨1⟩) (.write [33]), .poll [] [] [] [⟨1⟩]]

/-- A header and its payload have been sent, and another pair is queued. -/
theorem outbound_well_formed_opened :
    ∃ s, (YamuxSession.new Io.new false 0).run writtenTwice = some s ∧
      s.transport.sent.tail = [.stream ⟨1⟩ (.data Flags.empty 2),
        .stream ⟨1⟩ (.dataChunk [104, 105])] ∧
      s.outQueue = [.stream ⟨1⟩ (.data Flags.empty 1), .stream ⟨1⟩ (.dataChunk [33])] ∧
      s.transport.stream.accepted.length = 25 ∧ s.transport.writer.buffer.bytes = [105] ∧
      FrameBlocks (s.transport.sent ++ s.outQueue) ∧
      (∃ w, (FrameWriter.new ChainedChunkBufferWriter.new).writeAll
          (s.transport.sent ++ s.outQueue) = some (.ok (), w) ∧ w.pending = none) ∧
      s.transport.stream.accepted ++ s.transport.writer.buffer.bytes =
        encoding s.transport.sent := by
  have hrun : ((YamuxSession.new Io.new false 0).run writtenTwice).map (fun s =>
      (s.transport.sent.tail, s.outQueue, s.transport.stream.accepted.length,
        s.transport.writer.buffer.bytes)) =
      some ([.stream ⟨1⟩ (.data Flags.empty 2), .stream ⟨1⟩ (.dataChunk [104, 105])],
        [.stream ⟨1⟩ (.data Flags.empty 1), .stream ⟨1⟩ (.dataChunk [33])], 25, [105]) := by
    decide +kernel
  obtain ⟨s, hs, hfacts⟩ := Option.map_eq_some_iff.mp hrun
  simp only [Prod.mk.injEq] at hfacts
  obtain ⟨hsent, hqueue, haccepted, hbuffer⟩ := hfacts
  refine ⟨s, hs, hsent, hqueue, haccepted, hbuffer, ?_⟩
  exact outbound_well_formed (reachable_of_run (.init rfl) hs)

end YamuxLowMem
