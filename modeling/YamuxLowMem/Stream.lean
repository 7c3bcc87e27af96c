/-
YamuxLowMem/Stream.lean

`src/stream.rs`: the head of a stream, driven by the session, and the handle
the application holds.

The two are joined by a pair of channels: `up`, a `channel(1)` on which the
handle sends what the application writes, and `down`, an `unbounded()` on
which the head sends what the peer sent.  Channels are shared memory, so they
are arguments and results of the methods at either end; the head's fields `rx`
and `tx` are its ends of `up` and `down`, and the handle's `tx` and `rx` are the
others.  The head's `tx` being `None` is `down.senderOpen = false`.

An empty chunk on either channel stands for the end of the stream.

`StreamPair` keeps the two ends and the two channels of one stream together.
It also carries history variables that no method reads: the events the head
has yielded and accepted, and whether a read has reported the end of the
stream.

Log lines are left out.  The handle's counters `written` and `read` only feed
a log line in the source; here they keep the bytes they count.
-/
import YamuxLowMem.Lib.Async
import YamuxLowMem.Frame

namespace YamuxLowMem

open Async

/-- Initial per-stream flow-control window in bytes. -/
def initialWindow : UInt32 := 256 * 1024

def defaultWindowUpdateThreshold : UInt32 := initialWindow / 2

/-! ### Internal state -/

/-- Tracks whether each half of a stream is still open. -/
structure State where
  /-- local side is still sending data -/
  localOpen : Bool
  /-- remote side is still sending data -/
  remoteOpen : Bool
  deriving DecidableEq, Repr

/-- True when both the local and remote halves are closed. -/
def State.isClosed (s : State) : Bool := !s.localOpen && !s.remoteOpen

/-- Tracks per-stream send/receive flow-control windows. -/
structure Window where
  /-- how many bytes we can send; a `usize` in the source, and a natural number
  here, whose sums never overflow (`SendOverflow` says when a `usize` does not
  either) -/
  send : Nat
  /-- how many bytes we already received -/
  recv : Nat
  deriving DecidableEq, Repr

/-! ### Stream head (session-driven) -/

inductive YamuxStreamHeadError where
  | invalidFrameType
  | invalidDataChunkSize
  deriving DecidableEq, Repr

/-- State machine that turns stream I/O into `FrameStreamEvent` values. -/
structure YamuxStreamHead where
  id : StreamID
  state : State
  window : Window
  outs : List FrameStreamEvent
  recvState : Option Nat
  deriving DecidableEq, Repr

namespace YamuxStreamHead

/-- Creates a new outbound stream head (initiates with `SYN`). -/
def «open» (id : StreamID) : YamuxStreamHead :=
  { id := id
    state := { localOpen := true, remoteOpen := false }
    window := { send := initialWindow.toNat, recv := 0 }
    outs := [.windowUpdate Flags.onlySyn initialWindow]
    recvState := none }

/-- Creates a new inbound stream head (acknowledges with `ACK`). -/
def accept (id : StreamID) : YamuxStreamHead :=
  { id := id
    state := { localOpen := true, remoteOpen := true }
    window := { send := initialWindow.toNat, recv := 0 }
    outs := [.windowUpdate Flags.onlyAck initialWindow]
    recvState := none }

/-- Sends a chunk to the handle; when that fails `tx` becomes `None`. -/
def sendDown (down : Channel Bytes) (chunk : Bytes) : Channel Bytes :=
  match down.unboundedSend chunk with
  | (.ok (), down) => down
  | (.error _, down) => down.dropSender

def tryCloseLocal (h : YamuxStreamHead) : YamuxStreamHead :=
  if h.state.localOpen then
    { h with
      state := { h.state with localOpen := false }
      outs := h.outs ++ [.windowUpdate Flags.onlyFin 0] }
  else h

def tryCloseRemote (h : YamuxStreamHead) (down : Channel Bytes) :
    YamuxStreamHead × Channel Bytes :=
  if h.state.remoteOpen then
    ({ h with state := { h.state with remoteOpen := false } }, sendDown down [])
  else (h, down)

/-- Applies stream state transitions implied by control flags. -/
def handleFlag (h : YamuxStreamHead) (down : Channel Bytes) (flag : Flags) :
    YamuxStreamHead × Channel Bytes :=
  let h := if flag.ack && !h.state.remoteOpen then
      { h with state := { h.state with remoteOpen := true } }
    else h
  let (h, down) := if flag.rst then h.tryCloseLocal.tryCloseRemote down else (h, down)
  if flag.fin then h.tryCloseRemote down else (h, down)

/-- Records received bytes and schedules window update frames when needed. -/
def markReceivedBytes (h : YamuxStreamHead) (received : Nat) : YamuxStreamHead :=
  let recv := h.window.recv + received
  if defaultWindowUpdateThreshold.toNat ≤ recv + defaultChunkCapacity then
    { h with
      outs := h.outs ++ [.windowUpdate Flags.empty (UInt32.ofNat recv)]
      window := { h.window with recv := 0 } }
  else { h with window := { h.window with recv := recv } }

/-- Handles an incoming frame for this stream. -/
def onInput (h : YamuxStreamHead) (down : Channel Bytes) (event : FrameStreamEvent) :
    Except YamuxStreamHeadError Unit × YamuxStreamHead × Channel Bytes :=
  match event with
  | .data flags size =>
      if h.recvState.isSome then (.error .invalidFrameType, h, down)
      else
        let (h, down) := h.handleFlag down flags
        (.ok (), { h with recvState := some size.toNat }, down)
  | .dataChunk chunk =>
      match h.recvState with
      | some recvState =>
          if recvState < chunk.length then (.error .invalidDataChunkSize, h, down)
          else
            let recvState := recvState - chunk.length
            let h := { h with recvState := if recvState = 0 then none else some recvState }
            (.ok (), h.markReceivedBytes chunk.length, sendDown down chunk)
      | none => (.error .invalidFrameType, h, down)
  | .windowUpdate flags delta =>
      let (h, down) := h.handleFlag down flags
      (.ok (), { h with window := { h.window with send := h.window.send + delta.toNat } }, down)

/-- A non-empty chunk taken from `rx` becomes a header and its payload. -/
def sendChunk (h : YamuxStreamHead) (chunk : Bytes) : YamuxStreamHead :=
  { h with
    window := { h.window with send := h.window.send - chunk.length }
    outs := h.outs ++ [.data Flags.empty (UInt32.ofNat chunk.length), .dataChunk chunk] }

/-- The `while` loop of `poll_next` over the chunks waiting in `rx`: it only
takes one while a full chunk fits in the send window.  `senderOpen` tells
whether the handle can still send; the result is the head and what is left
waiting. -/
def drainRx (h : YamuxStreamHead) (senderOpen : Bool) :
    List Bytes → YamuxStreamHead × List Bytes
  | [] =>
      if defaultChunkCapacity ≤ h.window.send ∧ senderOpen = false then (h.tryCloseLocal, [])
      else (h, [])
  | chunk :: rest =>
      if defaultChunkCapacity ≤ h.window.send then
        if chunk.isEmpty then h.tryCloseLocal.drainRx senderOpen rest
        else (h.sendChunk chunk).drainRx senderOpen rest
      else (h, chunk :: rest)

def pollNext (h : YamuxStreamHead) (up : Channel Bytes) :
    Poll (Option FrameStreamEvent) × YamuxStreamHead × Channel Bytes :=
  match h.outs with
  -- send step 1 with controls
  | out :: outs => (.ready (some out), { h with outs := outs }, up)
  | [] =>
      if h.state.isClosed then (.ready none, h, up)
      else
        let (h, queue) := h.drainRx up.senderOpen up.queue
        let up := { up with queue := queue }
        match h.outs with
        -- send step 2 with controls
        | out :: outs => (.ready (some out), { h with outs := outs }, up)
        | [] => (.pending, h, up)

end YamuxStreamHead

/-! ### User-facing stream handle -/

/-- The two ways an operation of a handle fails: `ErrorKind::BrokenPipe`, with
the channel closed. -/
inductive StreamIoError where
  | brokenPipe
  deriving DecidableEq, Repr

/-- Capacity of the channel from a handle to its head. -/
def handleBuffer : Nat := 1

/-- User-facing half of a logical Yamux stream. -/
structure YamuxStream where
  id : StreamID
  recvChunk : Option (Bytes × Nat)
  written : Bytes
  read : Bytes
  deriving DecidableEq, Repr

namespace YamuxStream

def new (id : StreamID) : YamuxStream :=
  { id := id, recvChunk := none, written := [], read := [] }

/-- Copies what is left of the current chunk, as far as the buffer goes. -/
def readChunk (s : YamuxStream) (chunk : Bytes) (offset bufLen : Nat) : Bytes × YamuxStream :=
  let out := (chunk.drop offset).take (min (chunk.length - offset) bufLen)
  let offset := offset + out.length
  (out, { s with
    recvChunk := if offset = chunk.length then none else some (chunk, offset)
    read := s.read ++ out })

/-- Reads into a buffer of length `bufLen`; `ok` holds the bytes placed there. -/
def pollRead (s : YamuxStream) (down : Channel Bytes) (bufLen : Nat) :
    Poll (Except StreamIoError Bytes) × YamuxStream × Channel Bytes :=
  match s.recvChunk with
  | some (chunk, offset) =>
      let (out, s) := s.readChunk chunk offset bufLen
      (.ready (.ok out), s, down)
  | none =>
      match down.pollNext with
      | (.pending, down) => (.pending, s, down)
      | (.ready none, down) => (.ready (.error .brokenPipe), s, down)
      | (.ready (some chunk), down) =>
          if chunk.isEmpty then (.ready (.ok []), s, down)
          else
            let (out, s) := s.readChunk chunk 0 bufLen
            (.ready (.ok out), s, down)

/-- Writes from a buffer; `ok` holds how many of its bytes were taken. -/
def pollWrite (s : YamuxStream) (up : Channel Bytes) (buf : Bytes) :
    Poll (Except StreamIoError Nat) × YamuxStream × Channel Bytes :=
  match up.pollReady handleBuffer with
  | .pending => (.pending, s, up)
  | .ready (.error _) => (.ready (.error .brokenPipe), s, up)
  | .ready (.ok ()) =>
      let sendLen := min buf.length defaultChunkCapacity
      match up.startSend handleBuffer (buf.take sendLen) with
      | (.error _, up) => (.ready (.error .brokenPipe), s, up)
      | (.ok (), up) =>
          (.ready (.ok sendLen), { s with written := s.written ++ buf.take sendLen }, up)

/-- Waits for room on the channel, not for what has been written to leave it. -/
def pollFlush (up : Channel Bytes) : Poll (Except StreamIoError Unit) :=
  match up.pollFlush handleBuffer with
  | .pending => .pending
  | .ready (.ok ()) => .ready (.ok ())
  | .ready (.error _) => .ready (.error .brokenPipe)

/-- Disconnects `tx`: nothing more can be written. -/
def pollClose (up : Channel Bytes) : Poll (Except StreamIoError Unit) × Channel Bytes :=
  (.ready (.ok ()), up.dropSender)

end YamuxStream

/-! ### A head, its handle and their channels -/

/-- The two ends of one stream with the channels between them. -/
structure StreamPair where
  head : YamuxStreamHead
  handle : YamuxStream
  up : Channel Bytes
  down : Channel Bytes
  /-- events the head has yielded -/
  emitted : List FrameStreamEvent
  /-- events the head has accepted -/
  inputs : List FrameStreamEvent
  /-- a read into a non-empty buffer has reported the end of the stream -/
  eof : Bool
  deriving DecidableEq, Repr

/-- What the application can do with a handle. -/
inductive HandleOp where
  | write (buf : Bytes)
  | close
  | drop
  | read (bufLen : Nat)
  deriving DecidableEq, Repr

namespace StreamPair

def ofHead (head : YamuxStreamHead) : StreamPair :=
  { head := head, handle := YamuxStream.new head.id, up := Channel.new, down := Channel.new,
    emitted := [], inputs := [], eof := false }

/-- `open_stream`. -/
def openStream (id : StreamID) : StreamPair := ofHead (YamuxStreamHead.open id)

/-- `accept_stream`. -/
def acceptStream (id : StreamID) : StreamPair := ofHead (YamuxStreamHead.accept id)

/-- The head has not been dropped. -/
def headAlive (p : StreamPair) : Bool := p.up.receiverOpen

/-- The handle has not been dropped. -/
def handleAlive (p : StreamPair) : Bool := p.down.receiverOpen

def onInput (p : StreamPair) (event : FrameStreamEvent) :
    Except YamuxStreamHeadError Unit × StreamPair :=
  let (result, head, down) := p.head.onInput p.down event
  (result, { p with
    head := head
    down := down
    inputs := match result with
      | .ok () => p.inputs ++ [event]
      | .error _ => p.inputs })

def pollNext (p : StreamPair) : Poll (Option FrameStreamEvent) × StreamPair :=
  let (result, head, up) := p.head.pollNext p.up
  (result, { p with
    head := head
    up := up
    emitted := match result with
      | .ready (some event) => p.emitted ++ [event]
      | _ => p.emitted })

def pollWrite (p : StreamPair) (buf : Bytes) : Poll (Except StreamIoError Nat) × StreamPair :=
  let (result, handle, up) := p.handle.pollWrite p.up buf
  (result, { p with handle := handle, up := up })

/-- Does the answer to a read report the end of the stream? -/
def endReported (result : Poll (Except StreamIoError Bytes)) (bufLen : Nat) : Bool :=
  match result with
  | .ready (.ok out) => out.isEmpty && decide (0 < bufLen)
  | _ => false

def pollRead (p : StreamPair) (bufLen : Nat) : Poll (Except StreamIoError Bytes) × StreamPair :=
  let (result, handle, down) := p.handle.pollRead p.down bufLen
  (result, { p with handle := handle, down := down, eof := p.eof || endReported result bufLen })

/-- Dropping the handle drops both of its channel ends. -/
def dropHandle (p : StreamPair) : StreamPair :=
  { p with up := p.up.dropSender, down := p.down.dropReceiver }

/-- Dropping the head drops both of its channel ends. -/
def dropHead (p : StreamPair) : StreamPair :=
  { p with up := p.up.dropReceiver, down := p.down.dropSender }

/-- What becomes of the pair when the application uses the handle; once
dropped there is no handle to use. -/
def handleOp (p : StreamPair) (op : HandleOp) : StreamPair :=
  if p.handleAlive then
    match op with
    | .write buf => (p.pollWrite buf).2
    | .close => { p with up := (YamuxStream.pollClose p.up).2 }
    | .drop => p.dropHandle
    | .read bufLen => (p.pollRead bufLen).2
  else p

end StreamPair

end YamuxLowMem
