/-
YamuxLowMem/Session.lean

`src/session.rs`: many streams over one transport.

A head is registered together with the rest of its `StreamPair`: the handle
belongs to the application, but it shares the channels.  When the head is
dropped (the stream is closed, or `open_stream` reuses its id) the pair moves
to `dropped`, where the application can go on using the handle.

The order in which a `HashMap` is iterated is not specified, so `poll_next`
takes it as an argument: a list of the registered ids.

`errors` records what the two "TODO how to handle this?" branches log and
ignore; nothing reads it.
-/
import YamuxLowMem.Stream
import YamuxLowMem.Transport
import Mathlib.Data.Finmap

namespace YamuxLowMem

open Async

/-- Multiplexes logical Yamux streams over an async transport. -/
structure YamuxSession where
  transport : YamuxTransport
  streams : Finmap (fun _ : StreamID => StreamPair)
  nextStreamId : UInt32
  outQueue : List Frame
  manualClose : Bool
  /-- pairs whose head has been dropped -/
  dropped : List StreamPair
  /-- errors of `on_input` that were logged and ignored -/
  errors : List (StreamID × YamuxStreamHeadError)

/-- How the application names one of its handles. -/
inductive HandleRef where
  | registered (id : StreamID)
  | dropped (index : Nat)
  deriving DecidableEq, Repr

namespace YamuxSession

/-- Creates a session and selects the next outbound stream identifier. -/
def new (stream : Io) (isServer : Bool) (maxWriteBuffer : Nat) : YamuxSession :=
  { transport := YamuxTransport.new stream maxWriteBuffer
    streams := ∅
    nextStreamId := if isServer then 2 else 1
    outQueue := []
    manualClose := false
    dropped := []
    errors := [] }

/-- Creates a server-side session (even stream identifiers). -/
def server (stream : Io) (maxWriteBuffer : Nat) : YamuxSession := new stream true maxWriteBuffer

/-- Creates a client-side session (odd stream identifiers). -/
def client (stream : Io) (maxWriteBuffer : Nat) : YamuxSession := new stream false maxWriteBuffer

/-- `streams.insert`: a head registered under the same id is dropped. -/
def insertStream (s : YamuxSession) (id : StreamID) (p : StreamPair) : YamuxSession :=
  { s with
    streams := s.streams.insert id p
    dropped := match s.streams.lookup id with
      | some old => s.dropped ++ [old.dropHead]
      | none => s.dropped }

/-- `streams.remove`. -/
def removeStream (s : YamuxSession) (id : StreamID) : YamuxSession :=
  { s with
    streams := s.streams.erase id
    dropped := match s.streams.lookup id with
      | some old => s.dropped ++ [old.dropHead]
      | none => s.dropped }

/-- Replace the state of a registered pair. -/
def setStream (s : YamuxSession) (id : StreamID) (p : StreamPair) : YamuxSession :=
  { s with streams := s.streams.insert id p }

/-- Opens a new outbound stream. -/
def openStream (s : YamuxSession) : YamuxSession :=
  let streamId : StreamID := ⟨s.nextStreamId⟩
  let next := s.nextStreamId + 2
  let s := { s with nextStreamId := if next = 0 then 2 else next }
  s.insertStream streamId (StreamPair.openStream streamId)

/-- Starts a graceful session shutdown by queueing a GoAway frame. -/
def close (s : YamuxSession) (code : UInt32) : YamuxSession :=
  { s with
    outQueue := s.outQueue ++ [.session (.goAway code)]
    manualClose := true }

/-- The application uses one of its handles. -/
def handleOp (s : YamuxSession) (ref : HandleRef) (op : HandleOp) : YamuxSession :=
  match ref with
  | .registered id =>
      match s.streams.lookup id with
      | some p => s.setStream id (p.handleOp op)
      | none => s
  | .dropped index => { s with dropped := s.dropped.modify index (·.handleOp op) }

/-- The I/O object's answers for the coming call. -/
def behave (s : YamuxSession) (writes : List (Poll (Except IoError Nat)))
    (reads : List (Poll (Except IoError Bytes))) (closes : List (Poll (Except IoError Unit))) :
    YamuxSession :=
  { s with
    transport := { s.transport with stream := s.transport.stream.behave writes reads closes } }

/-! ### Sending -/

/-- The loop that hands queued frames to the transport while it is ready; the
result is the transport, the frames left, and the flag `sent`. -/
def sendLoop (t : YamuxTransport) (sent : Bool) :
    List Frame → Option (YamuxTransport × List Frame × Bool)
  | [] => some (t, [], sent)
  | out :: outQueue => do
      let (ready, t) ← t.pollReady
      if ready.isReady then
        sendLoop (← t.startSend out) true outQueue
      else
        return (t, out :: outQueue, sent)

/-- `sendLoop` on the session's own queue. -/
def trySend (s : YamuxSession) (sent : Bool) : Option (YamuxSession × Bool) := do
  let (t, outQueue, sent) ← sendLoop s.transport sent s.outQueue
  return ({ s with transport := t, outQueue := outQueue }, sent)

/-! ### Receiving -/

/-- Record an error of `on_input` that is ignored. -/
def logError (s : YamuxSession) (id : StreamID) (result : Except YamuxStreamHeadError Unit) :
    YamuxSession :=
  match result with
  | .ok () => s
  | .error e => { s with errors := s.errors ++ [(id, e)] }

/-- Dispatch of one inbound frame: the session after it, and the answer of
`poll_next` if the frame ends the call. -/
def onFrame (s : YamuxSession) (frame : Frame) :
    Option (Poll (Option YamuxStream)) × YamuxSession :=
  match frame with
  | .session (.ping flags code) =>
      if flags.syn then
        (none, { s with outQueue := s.outQueue ++ [.session (.ping Flags.onlyAck code)] })
      else (none, s)
  | .session (.goAway _) => (some (.ready none), s)
  | .stream id event =>
      match s.streams.lookup id with
      | some p =>
          let (result, p) := p.onInput event
          (none, (s.setStream id p).logError id result)
      | none =>
          match event.flags with
          | some flags =>
              if flags.syn then
                let (result, p) := (StreamPair.acceptStream id).onInput event
                (some (.ready (some p.handle)), (s.insertStream id p).logError id result)
              else (none, s)
          | none => (none, s)

/-- The bytes an answer to `poll_read` can hand over. -/
def readSize : Poll (Except IoError Bytes) → Nat
  | .ready (.ok bs) => bs.length
  | _ => 0

/-- Bytes the reader holds or may still be handed in this call, counted so
that every frame lowers the count: a header takes twelve bytes, a chunk at
least one, and the chunk of an empty payload ends the pending state. -/
def inboundWork (s : YamuxSession) : Nat :=
  let t := s.transport
  2 * (t.reader.buffer.len + (t.stream.reads.map readSize).sum) +
    (if t.reader.pending.isSome then 1 else 0)

/-- The loop over inbound frames; the answer of `poll_next` if it is ended
there.  `inboundWork` is fuel enough. -/
def inboundLoop : Nat → YamuxSession →
    Option (Option (Poll (Option YamuxStream)) × YamuxSession)
  | 0, _ => none
  | fuel + 1, s => do
      let (event, t) ← s.transport.pollNext
      let s := { s with transport := t }
      match event with
      | .pending => return (none, s)
      | .ready none => return (some (.ready none), s)
      | .ready (some (.error _)) => return (some (.ready none), s)
      | .ready (some (.ok frame)) =>
          match s.onFrame frame with
          | (some answer, s) => return (some answer, s)
          | (none, s) => inboundLoop fuel s

/-! ### Draining the heads -/

/-- Bound on the events one head can yield in one call: what it has queued,
and two for each waiting chunk, and a `FIN`. -/
def drainWork (p : StreamPair) : Nat :=
  p.head.outs.length + 2 * p.up.queue.length + 2

/-- The `while let` over one head: the events it yields, and whether it
reported the stream closed. -/
def drainHead : Nat → StreamPair → List FrameStreamEvent × Bool × StreamPair
  | 0, p => ([], false, p)
  | fuel + 1, p =>
      match p.pollNext with
      | (.ready (some event), p) =>
          let (events, closed, p) := drainHead fuel p
          (event :: events, closed, p)
      | (.ready none, p) => ([], true, p)
      | (.pending, p) => ([], false, p)

/-- One turn of the `for` loop: the events of one head go to `out_queue`. -/
def drainStream (s : YamuxSession) (id : StreamID) (p : StreamPair) : YamuxSession × Bool :=
  let (events, closed, p) := drainHead (drainWork p) p
  ({ s.setStream id p with outQueue := s.outQueue ++ events.map (Frame.stream id) }, closed)

/-- The `for` loop over the heads, in the given order; the second component
is the ids found closed. -/
def drainHeads (s : YamuxSession) : List StreamID → YamuxSession × List StreamID
  | [] => (s, [])
  | id :: order =>
      match s.streams.lookup id with
      | none => s.drainHeads order
      | some p =>
          let (s, closed) := s.drainStream id p
          let (s, closedStream) := s.drainHeads order
          (s, if closed then id :: closedStream else closedStream)

/-- Drain every head, then forget the closed ones. -/
def drainAll (s : YamuxSession) (order : List StreamID) : YamuxSession :=
  let (s, closedStream) := s.drainHeads order
  closedStream.foldl removeStream s

/-! ### Polling -/

/-- What `poll_next` does once `close` has been called: wait until all frames
(ending with GoAway) are sent. -/
def pollClosing (s : YamuxSession) : Option (Poll (Option YamuxStream) × YamuxSession) := do
  let (result, t) ← s.transport.pollClose
  let s := { s with transport := t }
  return (if result.isReady then .ready none else .pending, s)

/-- The flush at the end of `poll_next`. -/
def flushSent (s : YamuxSession) (sent : Bool) :
    Option (Poll (Option YamuxStream) × YamuxSession) := do
  if sent then
    let (result, t) ← s.transport.pollFlush
    let s := { s with transport := t }
    match result with
    | .ready (.error _) => return (.ready none, s)
    | _ => return (.pending, s)
  else return (.pending, s)

/-- `poll_next`, when the streams map is iterated in the order `order`. -/
def pollNext (s : YamuxSession) (order : List StreamID) :
    Option (Poll (Option YamuxStream) × YamuxSession) := do
  -- first try to send
  let (s, sent) ← s.trySend false
  if s.manualClose then s.pollClosing
  else
    let (answer, s) ← s.inboundLoop (s.inboundWork + 1)
    match answer with
    | some answer => return (answer, s)
    | none =>
        -- second try to send
        let (s, sent) ← (s.drainAll order).trySend sent
        s.flushSent sent

end YamuxSession

end YamuxLowMem
