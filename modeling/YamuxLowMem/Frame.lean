/-
YamuxLowMem/Frame.lean

`src/frame.rs`: frames, and the stateful reader and writer of frame sequences.

A `ChunkView` inside a frame is only ever measured, compared and read through
the bytes it shows, so a `DataChunk` carries those bytes.
-/
import YamuxLowMem.Packet

namespace YamuxLowMem

/-- Tracks payload bytes remaining for a data frame currently being streamed. -/
structure PendingPayload where
  streamId : StreamID
  remain : Nat
  deriving DecidableEq, Repr

/-! ### Events -/

/-- Stream-directed events. -/
inductive FrameStreamEvent where
  /-- Announces an incoming data payload of `size` bytes. -/
  | data (flags : Flags) (size : UInt32)
  /-- Carries a slice of data for the current payload. -/
  | dataChunk (chunk : Bytes)
  /-- Updates the flow-control window by `delta`. -/
  | windowUpdate (flags : Flags) (delta : UInt32)
  deriving DecidableEq, Repr

/-- Returns flags for events that carry them. -/
def FrameStreamEvent.flags : FrameStreamEvent → Option Flags
  | data flags _ => some flags
  | windowUpdate flags _ => some flags
  | dataChunk _ => none

/-- Session-directed events. -/
inductive FrameSessionEvent where
  | ping (flags : Flags) (code : UInt32)
  | goAway (code : UInt32)
  deriving DecidableEq, Repr

/-- Yamux frame variants. -/
inductive Frame where
  | session (event : FrameSessionEvent)
  | stream (id : StreamID) (event : FrameStreamEvent)
  deriving DecidableEq, Repr

namespace Frame

/-- Attempts to parse a full frame.  The payload of a data frame remains in
the buffer. -/
def read {R : Type} [ChunkBufferReader R] (buffer : R) :
    Option (Except ParserError (Option Frame) × R) := do
  let (header, buffer) ← Header.read buffer
  match header with
  | .error e => return (.error e, buffer)
  | .ok none => return (.ok none, buffer)
  | .ok (some header) =>
      match header.type_ with
      | .data =>
          return (.ok (some (stream header.streamId (.data header.flags header.length))), buffer)
      | .windowUpdate =>
          return (.ok (some (stream header.streamId
            (.windowUpdate header.flags header.length))), buffer)
      | .ping => return (.ok (some (session (.ping header.flags header.length))), buffer)
      | .goAway => return (.ok (some (session (.goAway header.length))), buffer)

/-- Writes the frame into the provided buffer. -/
def write {W : Type} [ChunkBufferWriter W] (frame : Frame) (buffer : W) : Option W :=
  match frame with
  | session (.ping flags code) => (Header.new .ping flags ⟨0⟩ code).write buffer
  | session (.goAway code) => (Header.new .goAway Flags.empty ⟨0⟩ code).write buffer
  | stream id (.data flags size) => (Header.new .data flags id size).write buffer
  | stream _ (.dataChunk chunk) =>
      if chunk.isEmpty then some buffer else ChunkBufferWriter.writeSlice buffer chunk
  | stream id (.windowUpdate flags delta) => (Header.new .windowUpdate flags id delta).write buffer

end Frame

/-! ### Reader -/

/-- Stateful reader that yields metadata and payload chunks separately. -/
structure FrameReader (R : Type) where
  buffer : R
  pending : Option PendingPayload

namespace FrameReader

variable {R : Type} [ChunkBufferReader R]

def new (buffer : R) : FrameReader R := { buffer := buffer, pending := none }

/-- Pushes a new chunk to the back of the queue. -/
def pushBack [ChunkBufferSink R] (r : FrameReader R) (chunk : ChunkView) :
    Option (FrameReader R) := do
  return { r with buffer := ← ChunkBufferSink.pushBack r.buffer chunk }

/-- Parses the next frame or payload chunk if available; `ok none` when more
data is required to produce the next item. -/
def nextFrame (r : FrameReader R) : Option (Except ParserError (Option Frame) × FrameReader R) :=
  match r.pending with
  | some pending => do
      let (chunk, buffer) ← ChunkBufferReader.nextChunk r.buffer pending.remain
      match chunk with
      | none => return (.ok none, { r with buffer := buffer })
      | some chunk =>
          let remain ← checkedSub pending.remain (← chunk.len)
          let output := Frame.stream pending.streamId (.dataChunk (← chunk.deref))
          let pending := if remain = 0 then none else some { pending with remain := remain }
          return (.ok (some output), { buffer := buffer, pending := pending })
  | none => do
      let (frame, buffer) ← Frame.read r.buffer
      match frame with
      | .error e => return (.error e, { r with buffer := buffer })
      | .ok none => return (.ok none, { r with buffer := buffer })
      | .ok (some frame) =>
          let pending : Option PendingPayload := match frame with
            -- Start tracking this data frame for chunked delivery
            | .stream id (.data _ size) => some { streamId := id, remain := size.toNat }
            | _ => none
          return (.ok (some frame), { buffer := buffer, pending := pending })

end FrameReader

/-! ### Writer -/

/-- Errors returned by `FrameWriter.write`. -/
inductive FrameWriterError where
  | invalidStreamId
  | chunkTooLarge
  | unexpectedFrameType
  deriving DecidableEq, Repr

/-- Stateful writer that owns a buffer and enforces header/data sequencing. -/
structure FrameWriter (W : Type) where
  pending : Option PendingPayload
  buffer : W

namespace FrameWriter

variable {W : Type} [ChunkBufferWriter W]

def new (buffer : W) : FrameWriter W := { pending := none, buffer := buffer }

/-- What `write` checks, and the pending payload it leaves. -/
def track (pending : Option PendingPayload) (frame : Frame) :
    Except FrameWriterError (Option PendingPayload) :=
  match pending, frame with
  | some pending, .stream id (.dataChunk chunk) =>
      if id = pending.streamId then
        if pending.remain < chunk.length then .error .chunkTooLarge
        else if pending.remain - chunk.length = 0 then .ok none
        else .ok (some { pending with remain := pending.remain - chunk.length })
      else .error .invalidStreamId
  | some _, _ => .error .unexpectedFrameType
  | none, .stream id (.data _ size) => .ok (some { streamId := id, remain := size.toNat })
  | none, .stream _ (.dataChunk _) => .error .unexpectedFrameType
  | none, _ => .ok none

/-- Writes the next frame or chunk into the owned buffer, enforcing payload
sizes. -/
def write (w : FrameWriter W) (frame : Frame) :
    Option (Except FrameWriterError Unit × FrameWriter W) :=
  match track w.pending frame with
  | .error e => some (.error e, w)
  | .ok pending => do
      let buffer ← frame.write w.buffer
      return (.ok (), { pending := pending, buffer := buffer })

end FrameWriter

end YamuxLowMem
