/-
YamuxLowMem/Pair.lean

The moves of one stream: a head, its handle, and the channels between them.

Every method of `StreamPair` is a sequence of `PairStep`s.  A poll of the head
takes chunks from the channel one at a time and yields at most one event; what
the peer sends is one move; an operation of the handle is at most one.  So an
invariant of the moves is an invariant of every interleaving of the methods.
-/
import YamuxLowMem.Events
import YamuxLowMem.Lib.Run
import Mathlib.Data.List.Induction

namespace YamuxLowMem

open Async Relation

/-! ### Flags in closed form -/

namespace YamuxStreamHead

/-- The effect of `handle_flag` on the head: an `ACK` opens the remote half, a
`RST` closes both halves, a `FIN` closes the remote half. -/
def flagged (h : YamuxStreamHead) (flag : Flags) : YamuxStreamHead :=
  { h with
    state := {
      localOpen := h.state.localOpen && !flag.rst
      remoteOpen := (h.state.remoteOpen || flag.ack) && !(flag.rst || flag.fin) }
    outs := h.outs ++
      if flag.rst && h.state.localOpen then [.windowUpdate Flags.onlyFin 0] else [] }

/-- Does `handle_flag` report the end of the stream to the handle? -/
def endsRemote (h : YamuxStreamHead) (flag : Flags) : Bool :=
  (h.state.remoteOpen || flag.ack) && (flag.rst || flag.fin)

/-- The effect of `handle_flag` on the channel to the handle. -/
def flaggedDown (h : YamuxStreamHead) (down : Channel Bytes) (flag : Flags) : Channel Bytes :=
  if h.endsRemote flag then sendDown down [] else down

theorem handleFlag_eq (h : YamuxStreamHead) (down : Channel Bytes) (flag : Flags) :
    h.handleFlag down flag = (h.flagged flag, h.flaggedDown down flag) := by
  rcases h with ⟨id, ⟨localOpen, remoteOpen⟩, window, outs, recvState⟩
  rcases flag with ⟨syn, ack, fin, rst⟩
  cases localOpen <;> cases remoteOpen <;> cases ack <;> cases fin <;> cases rst <;>
    simp [handleFlag, flagged, flaggedDown, endsRemote, tryCloseLocal, tryCloseRemote]

theorem markReceivedBytes_recvState (h : YamuxStreamHead) (n : Nat) (r : Option Nat) :
    { h with recvState := r }.markReceivedBytes n =
      { h.markReceivedBytes n with recvState := r } := by
  simp only [markReceivedBytes]
  split <;> rfl

end YamuxStreamHead

/-! ### The moves -/

namespace StreamPair

/-- A stream as `open_stream` or `accept_stream` creates it. -/
def create (opened : Bool) (id : StreamID) : StreamPair :=
  if opened then openStream id else acceptStream id

/-- All events the head has put out, yielded or not. -/
def history (p : StreamPair) : List FrameStreamEvent := p.emitted ++ p.head.outs

end StreamPair

inductive PairStep : StreamPair → StreamPair → Prop where
  /-- the head yields the first event it has put out -/
  | yield {p : StreamPair} {e : FrameStreamEvent} {rest : List FrameStreamEvent} :
      p.headAlive → p.head.outs = e :: rest →
      PairStep p { p with
        head := { p.head with outs := rest }
        emitted := p.emitted ++ [e] }
  /-- the head takes a chunk and puts out a header and the chunk -/
  | take {p : StreamPair} {chunk : Bytes} {rest : List Bytes} :
      p.headAlive → p.up.queue = chunk :: rest → chunk ≠ [] →
      defaultChunkCapacity ≤ p.head.window.send →
      PairStep p { p with
        head := p.head.sendChunk chunk
        up := { p.up with queue := rest } }
  /-- the head takes an empty chunk -/
  | takeEnd {p : StreamPair} {rest : List Bytes} :
      p.headAlive → p.up.queue = [] :: rest → defaultChunkCapacity ≤ p.head.window.send →
      PairStep p { p with
        head := p.head.tryCloseLocal
        up := { p.up with queue := rest } }
  /-- the head sees that the handle will send no more -/
  | takeNone {p : StreamPair} :
      p.headAlive → p.up.queue = [] → p.up.senderOpen = false →
      PairStep p { p with head := p.head.tryCloseLocal }
  /-- the peer announces a payload -/
  | header {p : StreamPair} (flags : Flags) (size : UInt32) :
      p.headAlive → p.head.recvState = none →
      PairStep p { p with
        head := { p.head.flagged flags with recvState := some size.toNat }
        down := p.head.flaggedDown p.down flags
        inputs := p.inputs ++ [.data flags size] }
  /-- part of a payload arrives -/
  | chunk {p : StreamPair} {due : Nat} (bytes : Bytes) :
      p.headAlive → p.head.recvState = some due → bytes.length ≤ due →
      PairStep p { p with
        head := { p.head.markReceivedBytes bytes.length with
          recvState := if due - bytes.length = 0 then none else some (due - bytes.length) }
        down := YamuxStreamHead.sendDown p.down bytes
        inputs := p.inputs ++ [.dataChunk bytes] }
  /-- a window update arrives -/
  | window {p : StreamPair} (flags : Flags) (delta : UInt32) :
      p.headAlive →
      PairStep p { p with
        head := { p.head.flagged flags with
          window := { p.head.window with send := p.head.window.send + delta.toNat } }
        down := p.head.flaggedDown p.down flags
        inputs := p.inputs ++ [.windowUpdate flags delta] }
  /-- the application writes -/
  | write {p : StreamPair} (buf : Bytes) :
      p.handleAlive → p.headAlive → p.up.senderOpen → p.up.queue.length ≤ handleBuffer →
      PairStep p { p with
        handle := { p.handle with
          written := p.handle.written ++ buf.take (min buf.length defaultChunkCapacity) }
        up := p.up.push (buf.take (min buf.length defaultChunkCapacity)) }
  /-- the application closes its half -/
  | close {p : StreamPair} : p.handleAlive → PairStep p { p with up := p.up.dropSender }
  | dropHandle {p : StreamPair} : p.handleAlive → PairStep p p.dropHandle
  /-- a read goes on with the current chunk -/
  | readRest {p : StreamPair} {chunk : Bytes} {offset : Nat} (bufLen : Nat) :
      p.handleAlive → p.handle.recvChunk = some (chunk, offset) →
      PairStep p { p with
        handle := (p.handle.readChunk chunk offset bufLen).2
        eof := p.eof ||
          ((p.handle.readChunk chunk offset bufLen).1.isEmpty && decide (0 < bufLen)) }
  /-- a read finds the end of the stream -/
  | readEnd {p : StreamPair} {rest : List Bytes} (bufLen : Nat) :
      p.handleAlive → p.handle.recvChunk = none → p.down.queue = [] :: rest →
      PairStep p { p with
        down := { p.down with queue := rest }
        eof := p.eof || decide (0 < bufLen) }
  /-- a read takes the next chunk -/
  | readNext {p : StreamPair} {chunk : Bytes} {rest : List Bytes} (bufLen : Nat) :
      p.handleAlive → p.handle.recvChunk = none → p.down.queue = chunk :: rest → chunk ≠ [] →
      PairStep p { p with
        handle := (p.handle.readChunk chunk 0 bufLen).2
        down := { p.down with queue := rest }
        eof := p.eof || ((p.handle.readChunk chunk 0 bufLen).1.isEmpty && decide (0 < bufLen)) }
  | dropHead {p : StreamPair} : PairStep p p.dropHead

/-- One stream from its creation on, opened here or accepted. -/
def pairMachine (opened : Bool) (id : StreamID) : Run.Machine StreamPair where
  init p := p = StreamPair.create opened id
  step := PairStep

/-! ### The methods as moves -/

theorem PairStep.handleId {p q : StreamPair} (h : PairStep p q) : q.handle.id = p.handle.id := by
  cases h <;> rfl

namespace StreamPair

variable {p q : StreamPair}

/-- A window update is always accepted. -/
theorem onInput_window (flags : Flags) (delta : UInt32) :
    p.onInput (.windowUpdate flags delta) = (.ok (), { p with
      head := { p.head.flagged flags with
        window := { p.head.window with send := p.head.window.send + delta.toNat } }
      down := p.head.flaggedDown p.down flags
      inputs := p.inputs ++ [.windowUpdate flags delta] }) := by
  simp [onInput, YamuxStreamHead.onInput, YamuxStreamHead.handleFlag_eq, YamuxStreamHead.flagged]

/-- A data header is accepted between payloads. -/
theorem onInput_header (hr : p.head.recvState = none) (flags : Flags) (size : UInt32) :
    p.onInput (.data flags size) = (.ok (), { p with
      head := { p.head.flagged flags with recvState := some size.toNat }
      down := p.head.flaggedDown p.down flags
      inputs := p.inputs ++ [.data flags size] }) := by
  simp [onInput, YamuxStreamHead.onInput, YamuxStreamHead.handleFlag_eq, hr]

/-- A chunk is accepted where that much payload is due. -/
theorem onInput_chunk {due : Nat} (hr : p.head.recvState = some due) {bytes : Bytes}
    (hle : bytes.length ≤ due) :
    p.onInput (.dataChunk bytes) = (.ok (), { p with
      head := { p.head.markReceivedBytes bytes.length with
        recvState := if due - bytes.length = 0 then none else some (due - bytes.length) }
      down := YamuxStreamHead.sendDown p.down bytes
      inputs := p.inputs ++ [.dataChunk bytes] }) := by
  have hlt : ¬ due < bytes.length := Nat.not_lt_of_le hle
  simp [onInput, YamuxStreamHead.onInput, hr, hlt, YamuxStreamHead.markReceivedBytes_recvState]

/-- A window update changes the pair in one way. -/
theorem onInput_window_ok {flags : Flags} {delta : UInt32}
    (h : p.onInput (.windowUpdate flags delta) = (.ok (), q)) : q = { p with
      head := { p.head.flagged flags with
        window := { p.head.window with send := p.head.window.send + delta.toNat } }
      down := p.head.flaggedDown p.down flags
      inputs := p.inputs ++ [.windowUpdate flags delta] } := by
  rw [onInput_window] at h
  exact (Prod.mk.inj h).2.symm

/-- A header that is accepted came between payloads. -/
theorem onInput_header_ok {flags : Flags} {size : UInt32}
    (h : p.onInput (.data flags size) = (.ok (), q)) :
    p.head.recvState = none ∧ q = { p with
      head := { p.head.flagged flags with recvState := some size.toNat }
      down := p.head.flaggedDown p.down flags
      inputs := p.inputs ++ [.data flags size] } := by
  cases hr : p.head.recvState with
  | some due => simp [onInput, YamuxStreamHead.onInput, hr] at h
  | none =>
      rw [onInput_header hr] at h
      exact ⟨rfl, (Prod.mk.inj h).2.symm⟩

/-- A chunk that is accepted was due. -/
theorem onInput_chunk_ok {bytes : Bytes} (h : p.onInput (.dataChunk bytes) = (.ok (), q)) :
    ∃ due, p.head.recvState = some due ∧ bytes.length ≤ due ∧ q = { p with
      head := { p.head.markReceivedBytes bytes.length with
        recvState := if due - bytes.length = 0 then none else some (due - bytes.length) }
      down := YamuxStreamHead.sendDown p.down bytes
      inputs := p.inputs ++ [.dataChunk bytes] } := by
  cases hr : p.head.recvState with
  | none => simp [onInput, YamuxStreamHead.onInput, hr] at h
  | some due =>
      by_cases hlt : due < bytes.length
      · simp [onInput, YamuxStreamHead.onInput, hr, hlt] at h
      · have hle := Nat.le_of_not_lt hlt
        rw [onInput_chunk hr hle] at h
        exact ⟨due, rfl, hle, (Prod.mk.inj h).2.symm⟩

/-- An accepted event is one move. -/
theorem onInput_ok (hp : p.headAlive) {event : FrameStreamEvent}
    (h : p.onInput event = (.ok (), q)) : PairStep p q ∧ q.inputs = p.inputs ++ [event] := by
  cases event with
  | data flags size =>
      obtain ⟨hr, rfl⟩ := onInput_header_ok h
      exact ⟨.header flags size hp hr, rfl⟩
  | dataChunk bytes =>
      obtain ⟨due, hr, hle, rfl⟩ := onInput_chunk_ok h
      exact ⟨.chunk bytes hp hr hle, rfl⟩
  | windowUpdate flags delta =>
      obtain rfl := onInput_window_ok h
      exact ⟨.window flags delta hp, rfl⟩

/-- A refused event changes nothing. -/
theorem onInput_error {event : FrameStreamEvent} {e : YamuxStreamHeadError}
    (h : p.onInput event = (.error e, q)) : q = p := by
  cases event with
  | data flags size =>
      cases hr : p.head.recvState with
      | none => simp [onInput, YamuxStreamHead.onInput, hr] at h
      | some due =>
          simp [onInput, YamuxStreamHead.onInput, hr] at h
          exact h.2.symm
  | dataChunk bytes =>
      cases hr : p.head.recvState with
      | none =>
          simp [onInput, YamuxStreamHead.onInput, hr] at h
          exact h.2.symm
      | some due =>
          by_cases hlt : due < bytes.length
          · simp [onInput, YamuxStreamHead.onInput, hr, hlt] at h
            exact h.2.symm
          · simp [onInput, YamuxStreamHead.onInput, hr, hlt] at h
  | windowUpdate flags delta => simp [onInput, YamuxStreamHead.onInput] at h

/-- Taking chunks off the channel, in moves. -/
theorem drainRx_steps {queue : List Bytes} (hp : p.headAlive) (hq : p.up.queue = queue) :
    ReflTransGen PairStep p { p with
      head := (p.head.drainRx p.up.senderOpen queue).1
      up := { p.up with queue := (p.head.drainRx p.up.senderOpen queue).2 } } := by
  induction queue generalizing p with
  | nil =>
      by_cases hgone : defaultChunkCapacity ≤ p.head.window.send ∧ p.up.senderOpen = false
      · simp only [YamuxStreamHead.drainRx, if_pos hgone, ← hq]
        exact .single (.takeNone hp hq hgone.2)
      · simp only [YamuxStreamHead.drainRx, if_neg hgone, ← hq]
        exact .refl
  | cons chunk rest ih =>
      by_cases hroom : defaultChunkCapacity ≤ p.head.window.send
      · cases chunk with
        | nil =>
            simp only [YamuxStreamHead.drainRx, if_pos hroom, List.isEmpty_nil, if_true]
            apply ReflTransGen.head (.takeEnd hp hq hroom)
            exact ih hp rfl
        | cons b bs =>
            simp only [YamuxStreamHead.drainRx, if_pos hroom, List.isEmpty_cons]
            apply ReflTransGen.head (.take hp hq (List.cons_ne_nil b bs) hroom)
            exact ih hp rfl
      · simp only [YamuxStreamHead.drainRx, if_neg hroom, ← hq]
        exact .refl

/-- A poll of the head consists of moves. -/
theorem pollNext_steps (hp : p.headAlive) :
    ReflTransGen PairStep p p.pollNext.2 := by
  cases ho : p.head.outs with
  | cons e rest =>
      simp only [pollNext, YamuxStreamHead.pollNext, ho]
      exact .single (.yield hp ho)
  | nil =>
      by_cases hc : p.head.state.isClosed
      · simp only [pollNext, YamuxStreamHead.pollNext, ho, if_pos hc]
        exact .refl
      · have hdrain := drainRx_steps hp (rfl : p.up.queue = p.up.queue)
        simp only [pollNext, YamuxStreamHead.pollNext, ho, if_neg hc]
        generalize p.head.drainRx p.up.senderOpen p.up.queue = drained at hdrain ⊢
        obtain ⟨h', queue'⟩ := drained
        cases ho' : h'.outs with
        | nil => exact hdrain
        | cons e rest =>
            simp only
            exact hdrain.tail (.yield hp ho')

theorem pollWrite_steps (hh : p.handleAlive) (buf : Bytes) :
    ReflTransGen PairStep p (p.pollWrite buf).2 := by
  by_cases hopen : p.up.senderOpen = true ∧ p.up.receiverOpen = true
  · obtain ⟨hs, hr⟩ := hopen
    by_cases hroom : p.up.queue.length ≤ handleBuffer
    · simp only [pollWrite, YamuxStream.pollWrite, Channel.pollReady, Channel.startSend, hs, hr,
        hroom, Bool.and_self, if_true]
      exact .single (.write buf hh hr hs hroom)
    · simp only [pollWrite, YamuxStream.pollWrite, Channel.pollReady, hs, hr, hroom,
        Bool.and_self, if_true, if_false]
      exact .refl
  · have hclosed : (p.up.senderOpen && p.up.receiverOpen) = false := by
      simpa [Bool.and_eq_true] using hopen
    simp only [pollWrite, YamuxStream.pollWrite, Channel.pollReady, hclosed]
    exact .refl

theorem pollRead_steps (hh : p.handleAlive) (bufLen : Nat) :
    ReflTransGen PairStep p (p.pollRead bufLen).2 := by
  cases hc : p.handle.recvChunk with
  | some current =>
      obtain ⟨chunk, offset⟩ := current
      simp only [pollRead, YamuxStream.pollRead, hc]
      exact .single (.readRest bufLen hh hc)
  | none =>
      cases hq : p.down.queue with
      | cons chunk rest =>
          cases chunk with
          | nil =>
              simp only [pollRead, YamuxStream.pollRead, hc, Channel.pollNext, hq]
              exact .single (.readEnd bufLen hh hc hq)
          | cons b bs =>
              simp only [pollRead, YamuxStream.pollRead, hc, Channel.pollNext, hq]
              exact .single (.readNext bufLen hh hc hq (List.cons_ne_nil b bs))
      | nil =>
          cases ho : p.down.senderOpen with
          | true =>
              simp only [pollRead, YamuxStream.pollRead, hc, Channel.pollNext, hq, ho, endReported,
                Bool.or_false, if_true]
              exact .refl
          | false =>
              simp only [pollRead, YamuxStream.pollRead, hc, Channel.pollNext, hq, ho, endReported,
                Bool.or_false, Bool.false_eq_true, if_false]
              exact .refl

/-- An operation of the handle is at most one move. -/
theorem handleOp_steps (op : HandleOp) : ReflTransGen PairStep p (p.handleOp op) := by
  by_cases hh : p.handleAlive
  · simp only [handleOp, if_pos hh]
    cases op with
    | write buf => exact pollWrite_steps hh buf
    | close => exact .single (.close hh)
    | drop => exact .single (.dropHandle hh)
    | read bufLen => exact pollRead_steps hh bufLen
  · simp only [handleOp, if_neg hh]
    exact .refl

end StreamPair

/-! ### Runs -/

/-- What can happen to a stream whose head is in use. -/
inductive PairOp where
  | input (event : FrameStreamEvent)
  | poll
  | handle (op : HandleOp)
  deriving DecidableEq, Repr

namespace StreamPair

def step (p : StreamPair) : PairOp → StreamPair
  | .input event => (p.onInput event).2
  | .poll => p.pollNext.2
  | .handle op => p.handleOp op

def run (p : StreamPair) (ops : List PairOp) : StreamPair := ops.foldl step p

theorem run_concat (p : StreamPair) (ops : List PairOp) (op : PairOp) :
    p.run (ops ++ [op]) = (p.run ops).step op := by
  rw [run, List.foldl_append, List.foldl_cons, List.foldl_nil]
  rfl

variable {p q : StreamPair}

/-! ### What the methods leave alone -/

theorem drainRx_recvState (h : YamuxStreamHead) (senderOpen : Bool) (queue : List Bytes) :
    (h.drainRx senderOpen queue).1.recvState = h.recvState := by
  induction queue generalizing h with
  | nil =>
      simp only [YamuxStreamHead.drainRx]
      split
      · simp only [YamuxStreamHead.tryCloseLocal]
        split <;> rfl
      · rfl
  | cons chunk rest ih =>
      simp only [YamuxStreamHead.drainRx]
      split
      · split
        · rw [ih]
          simp only [YamuxStreamHead.tryCloseLocal]
          split <;> rfl
        · rw [ih]
          rfl
      · rfl

theorem pollNext_recvState : p.pollNext.2.head.recvState = p.head.recvState := by
  have hdrain := drainRx_recvState p.head p.up.senderOpen p.up.queue
  simp only [pollNext, YamuxStreamHead.pollNext]
  split
  · rfl
  · split
    · rfl
    · split <;> exact hdrain

/-- When a poll of the head reports the end. -/
theorem pollNext_eq_none_iff :
    p.pollNext.1 = .ready none ↔ p.head.outs = [] ∧ p.head.state.isClosed = true := by
  cases ho : p.head.outs with
  | cons e rest => simp [pollNext, YamuxStreamHead.pollNext, ho]
  | nil =>
      cases hc : p.head.state.isClosed with
      | true => simp [pollNext, YamuxStreamHead.pollNext, ho, hc]
      | false =>
          simp only [pollNext, YamuxStreamHead.pollNext, ho, hc]
          simp only [Bool.false_eq_true, if_false, and_false, iff_false]
          split <;> simp

/-- A poll that reports the end changes nothing. -/
theorem pollNext_none (h : p.pollNext = (.ready none, q)) : q = p := by
  obtain ⟨houts, hclosed⟩ := pollNext_eq_none_iff.mp (congrArg Prod.fst h)
  have hself : p.pollNext = (.ready none, p) := by
    simp [pollNext, YamuxStreamHead.pollNext, houts, hclosed]
  rw [hself] at h
  exact (Prod.mk.inj h).2.symm

/-- The event a poll yields is recorded. -/
theorem pollNext_emitted : p.pollNext.2.emitted = p.emitted ++
    match p.pollNext.1 with
    | .ready (some e) => [e]
    | _ => [] := by
  rcases h : p.head.pollNext p.up with ⟨result, head, up⟩
  rcases result with - | - | e <;> simp [pollNext, h]

theorem pollNext_inputs : p.pollNext.2.inputs = p.inputs := rfl

/-- The head takes from the channel and puts nothing into it. -/
theorem pollNext_upLog : p.pollNext.2.up.log = p.up.log := by
  simp only [pollNext, YamuxStreamHead.pollNext]
  split
  · rfl
  · split
    · rfl
    · split <;> rfl

theorem onInput_emitted (event : FrameStreamEvent) : (p.onInput event).2.emitted = p.emitted := rfl

/-- The handle only touches its own state and the channels. -/
theorem handleOp_frame (op : HandleOp) :
    (p.handleOp op).head = p.head ∧ (p.handleOp op).emitted = p.emitted ∧
      (p.handleOp op).inputs = p.inputs := by
  by_cases hh : p.handleAlive
  · simp only [handleOp, if_pos hh]
    cases op <;> exact ⟨rfl, rfl, rfl⟩
  · simp [handleOp, hh]

theorem onInput_headAlive (event : FrameStreamEvent) :
    (p.onInput event).2.headAlive = p.headAlive := rfl

theorem pollNext_headAlive : p.pollNext.2.headAlive = p.headAlive := by
  simp only [pollNext, YamuxStreamHead.pollNext, headAlive]
  split
  · rfl
  · split
    · rfl
    · split <;> rfl

theorem handleOp_headAlive (op : HandleOp) : (p.handleOp op).headAlive = p.headAlive := by
  by_cases hh : p.handleAlive
  · simp only [handleOp, if_pos hh]
    cases op with
    | write buf =>
        simp only [pollWrite, YamuxStream.pollWrite, headAlive]
        split
        · rfl
        · rfl
        · simp only [Channel.startSend]
          split_ifs <;> rfl
    | close | drop | read bufLen => rfl
  · simp only [handleOp, if_neg hh]

theorem handleOp_handleId (p : StreamPair) (op : HandleOp) :
    (p.handleOp op).handle.id = p.handle.id := by
  have hsteps := handleOp_steps (p := p) op
  generalize p.handleOp op = q at hsteps
  induction hsteps with
  | refl => rfl
  | tail _ hstep ih => exact hstep.handleId.trans ih

/-- While the head is in use, every method is a number of moves. -/
theorem step_steps (hp : p.headAlive) (op : PairOp) : ReflTransGen PairStep p (p.step op) := by
  cases op with
  | input event =>
      cases h : p.onInput event with
      | mk result q =>
          simp only [step, h]
          cases result with
          | ok => exact .single (onInput_ok hp h).1
          | error e => rw [onInput_error h]
  | poll => exact pollNext_steps hp
  | handle op => exact handleOp_steps op

theorem step_headAlive (op : PairOp) : (p.step op).headAlive = p.headAlive := by
  cases op with
  | input event => exact onInput_headAlive event
  | poll => exact pollNext_headAlive
  | handle op => exact handleOp_headAlive op

/-- What a run reaches, moves reach, and the head is still there. -/
theorem run_reachable (opened : Bool) (id : StreamID) (ops : List PairOp) :
    (pairMachine opened id).Reachable ((create opened id).run ops) ∧
      ((create opened id).run ops).headAlive := by
  induction ops using List.reverseRecOn with
  | nil => exact ⟨.init rfl, by cases opened <;> rfl⟩
  | append_singleton ops op ih =>
      obtain ⟨hreach, halive⟩ := ih
      rw [run_concat]
      exact ⟨hreach.steps (step_steps halive op), by rw [step_headAlive]; exact halive⟩

end StreamPair

end YamuxLowMem
