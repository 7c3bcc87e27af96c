/-
YamuxLowMem/Transport.lean

`src/transport.rs`: frames over an `AsyncRead + AsyncWrite` object.

The I/O object is known only by how it answers.  `Io` lists the answers it
gives to the coming calls of `poll_write`, `poll_read` and `poll_close`; once a
list is used up it answers `pending`.  What `AsyncWrite` and `AsyncRead` promise
is built in: an accepted write takes no more than the slice it was offered,
and a read fills no more than the buffer.  A poll that returns makes finitely
many calls, so every behaviour it can meet is the front of such lists.  What no
list can say is that the answers never end: an object that takes no byte of a
slice for ever, or always has more to read, keeps a poll in its loop, and is
outside this model.  For writes `DrainWrite` takes the answers as they are,
endless or not.

`Io` also remembers the bytes it has taken and handed over, and how the calls
of `poll_write` were answered; the transport remembers the frames handed to
`start_send` and the frames `poll_next` has yielded.  No function reads these
histories.

As in `Chunk`, the outer `Option` of a result is `none` when the code panics.
-/
import YamuxLowMem.Lib.Async
import YamuxLowMem.Frame

namespace YamuxLowMem

open Async

/-- An error of the I/O object, by its text. -/
abbrev IoError := String

/-- The underlying I/O object, by the finitely many answers it gives before it is
pending. -/
structure Io where
  /-- answers to the coming calls of `poll_write` -/
  writes : List (Poll (Except IoError Nat))
  /-- answers to the coming calls of `poll_read` -/
  reads : List (Poll (Except IoError Bytes))
  /-- answers to the coming calls of `poll_close` -/
  closes : List (Poll (Except IoError Unit))
  /-- all bytes taken so far -/
  accepted : Bytes
  /-- all bytes handed over so far -/
  delivered : Bytes
  /-- how the calls of `poll_write` were answered -/
  calls : List (Poll (Except IoError Nat))

namespace Io

def new : Io :=
  { writes := [], reads := [], closes := [], accepted := [], delivered := [], calls := [] }

/-- The object as it behaves from now on: the answers it will give, with the
record of calls started afresh. -/
def behave (io : Io) (writes : List (Poll (Except IoError Nat)))
    (reads : List (Poll (Except IoError Bytes))) (closes : List (Poll (Except IoError Unit))) :
    Io :=
  { io with writes := writes, reads := reads, closes := closes, calls := [] }

def pollWrite (io : Io) (buf : Bytes) : Poll (Except IoError Nat) × Io :=
  match io.writes with
  | [] => (.pending, { io with calls := io.calls ++ [.pending] })
  | .pending :: rest => (.pending, { io with writes := rest, calls := io.calls ++ [.pending] })
  | .ready (.error e) :: rest =>
      (.ready (.error e), { io with writes := rest, calls := io.calls ++ [.ready (.error e)] })
  | .ready (.ok n) :: rest =>
      let written := min n buf.length
      (.ready (.ok written), { io with
        writes := rest
        accepted := io.accepted ++ buf.take written
        calls := io.calls ++ [.ready (.ok written)] })

def pollRead (io : Io) (bufLen : Nat) : Poll (Except IoError Bytes) × Io :=
  match io.reads with
  | [] => (.pending, io)
  | .pending :: rest => (.pending, { io with reads := rest })
  | .ready (.error e) :: rest => (.ready (.error e), { io with reads := rest })
  | .ready (.ok bs) :: rest =>
      (.ready (.ok (bs.take bufLen)), { io with
        reads := rest
        delivered := io.delivered ++ bs.take bufLen })

def pollClose (io : Io) : Poll (Except IoError Unit) × Io :=
  match io.closes with
  | [] => (.pending, io)
  | answer :: rest => (answer, { io with closes := rest })

end Io

/-! ### Transport -/

inductive YamuxTransportError where
  | io (e : IoError)
  | parserError (e : ParserError)
  deriving DecidableEq, Repr

/-- Length of the buffer `poll_next` reads into. -/
def readBufferLen : Nat := 4096

/-- Adapts an I/O object into Yamux frames using chunked buffers. -/
structure YamuxTransport where
  stream : Io
  maxWriterBuffer : Nat
  writer : FrameWriter ChainedChunkBufferWriter
  reader : FrameReader ChainedChunkBufferReader
  /-- frames handed to `start_send` -/
  sent : List Frame
  /-- frames `poll_next` has yielded -/
  received : List Frame

namespace YamuxTransport

def new (stream : Io) (maxWriterBuffer : Nat) : YamuxTransport :=
  { stream := stream
    maxWriterBuffer := maxWriterBuffer
    writer := FrameWriter.new ChainedChunkBufferWriter.new
    reader := FrameReader.new ChainedChunkBufferReader.new
    sent := []
    received := [] }

/-- The loop of `poll_write`: pop front as long as we can write.  Every turn
uses up an answer of the I/O object, and without one it is pending, so one
more than the number of answers is fuel enough. -/
def pollWriteLoop : Nat → Io → ChainedChunkBufferWriter →
    Option (Poll (Except YamuxTransportError Unit) × Io × ChainedChunkBufferWriter)
  | 0, _, _ => none
  | fuel + 1, stream, buffer => do
      match ← buffer.frontSlice with
      | none => return (.ready (.ok ()), stream, buffer)
      | some front =>
          match stream.pollWrite front with
          | (.pending, stream) => return (.pending, stream, buffer)
          | (.ready (.error e), stream) => return (.ready (.error (.io e)), stream, buffer)
          | (.ready (.ok written), stream) =>
              pollWriteLoop fuel stream (← buffer.consumeFront written)

/-- Flushes buffered encoded bytes to the underlying stream. -/
def pollWrite (t : YamuxTransport) :
    Option (Poll (Except YamuxTransportError Unit) × YamuxTransport) := do
  let (result, stream, buffer) ←
    pollWriteLoop (t.stream.writes.length + 1) t.stream t.writer.buffer
  return (result, { t with stream := stream, writer := { t.writer with buffer := buffer } })

def pollReady (t : YamuxTransport) :
    Option (Poll (Except YamuxTransportError Unit) × YamuxTransport) := do
  let (result, t) ← t.pollWrite
  match result with
  | .ready result => return (.ready result, t)
  | .pending =>
      -- if we have buffer more than max_writer_buffer, we need to wait
      if t.maxWriterBuffer ≤ t.writer.buffer.filledLen then return (.pending, t)
      else return (.ready (.ok ()), t)

/-- `start_send`; it always answers `Ok(())`. -/
def startSend (t : YamuxTransport) (item : Frame) : Option YamuxTransport := do
  let buffer ← item.write t.writer.buffer
  return { t with writer := { t.writer with buffer := buffer }, sent := t.sent ++ [item] }

def pollFlush (t : YamuxTransport) :
    Option (Poll (Except YamuxTransportError Unit) × YamuxTransport) :=
  t.pollWrite

def pollClose (t : YamuxTransport) :
    Option (Poll (Except YamuxTransportError Unit) × YamuxTransport) := do
  let (result, t) ← t.pollWrite
  match result with
  | .pending => return (.pending, t)
  | .ready (.error e) => return (.ready (.error e), t)
  | .ready (.ok ()) =>
      match t.stream.pollClose with
      | (.pending, stream) => return (.pending, { t with stream := stream })
      | (.ready (.error e), stream) =>
          return (.ready (.error (.io e)), { t with stream := stream })
      | (.ready (.ok ()), stream) => return (.ready (.ok ()), { t with stream := stream })

/-- Note a frame the reader has produced. -/
def yieldFrame (t : YamuxTransport) (frame : Frame) : YamuxTransport :=
  { t with received := t.received ++ [frame] }

/-- The `while` loop of `poll_next`: read until the reader has a frame.  Like
`pollWriteLoop` it uses up an answer a turn. -/
def readLoop : Nat → YamuxTransport →
    Option (Poll (Option (Except YamuxTransportError Frame)) × YamuxTransport)
  | 0, _ => none
  | fuel + 1, t => do
      match t.stream.pollRead readBufferLen with
      | (.pending, stream) => return (.pending, { t with stream := stream })
      | (.ready (.error e), stream) =>
          return (.ready (some (.error (.io e))), { t with stream := stream })
      | (.ready (.ok buf), stream) =>
          if buf.isEmpty then return (.ready none, { t with stream := stream })
          else
            let reader ← t.reader.pushBack (ChunkView.ofVec (Vec.ofList buf))
            let (frame, reader) ← reader.nextFrame
            let t := { t with stream := stream, reader := reader }
            match frame with
            | .ok (some frame) => return (.ready (some (.ok frame)), t.yieldFrame frame)
            | .ok none => readLoop fuel t
            | .error e => return (.ready (some (.error (.parserError e))), t)

def pollNext (t : YamuxTransport) :
    Option (Poll (Option (Except YamuxTransportError Frame)) × YamuxTransport) := do
  let (frame, reader) ← t.reader.nextFrame
  let t := { t with reader := reader }
  match frame with
  | .ok (some frame) => return (.ready (some (.ok frame)), t.yieldFrame frame)
  | .ok none => readLoop (t.stream.reads.length + 1) t
  | .error e => return (.ready (some (.error (.parserError e))), t)

end YamuxTransport

end YamuxLowMem
