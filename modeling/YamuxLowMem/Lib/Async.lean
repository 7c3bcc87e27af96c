/-
YamuxLowMem/Lib/Async.lean

Polls and single-producer channels, as the `futures` crate documents them.

A channel is one value shared by its two ends: the items that are buffered,
the history of all items ever accepted, and whether each end is still there.
Both flavours are the same queue; they differ in what the sender may do:

* the sender of a bounded channel with buffer `b` may have up to `b + 1`
  items waiting (one slot of its own beside the buffer), and is asked to wait
  beyond that;
* the sender of an unbounded channel is never asked to wait.

Sending fails once the receiver is gone or the sender has disconnected, and
flushing succeeds once there is no receiver to wait for.  The receiver gets
every buffered item before it is told that the sender is gone.  These are the
facts that `futures::channel::mpsc` documents, and all that is used of it.
Wake-ups are not modelled: a poll that answers `pending` leaves the channel as
it is.
-/
import Mathlib.Data.List.Basic

namespace Async

universe u

variable {α : Type u}

/-- The answer of a poll. -/
inductive Poll (α : Type u) where
  | pending
  | ready (a : α)
  deriving DecidableEq, Repr

namespace Poll

def isReady : Poll α → Bool
  | pending => false
  | ready _ => true

@[simp] theorem isReady_pending : (pending : Poll α).isReady = false := rfl

@[simp] theorem isReady_ready (a : α) : (ready a).isReady = true := rfl

end Poll

/-- Why a bounded sender could not send. -/
inductive SendError where
  | full
  | disconnected
  deriving DecidableEq, Repr

/-- A channel with one sender and one receiver.  `log` is a history variable:
all items the channel has accepted, in order. -/
structure Channel (α : Type u) where
  queue : List α
  log : List α
  senderOpen : Bool
  receiverOpen : Bool
  deriving DecidableEq, Repr

namespace Channel

/-- A fresh channel with both ends in place. -/
def new : Channel α :=
  { queue := [], log := [], senderOpen := true, receiverOpen := true }

/-- The receiver takes the next item; only an empty queue lets it see that
the sender is gone. -/
def pollNext (c : Channel α) : Poll (Option α) × Channel α :=
  match c.queue with
  | a :: rest => (.ready (some a), { c with queue := rest })
  | [] => (if c.senderOpen then .pending else .ready none, c)

/-- May the sender of a bounded channel send one more item? -/
def pollReady (c : Channel α) (buffer : Nat) : Poll (Except SendError Unit) :=
  if c.senderOpen && c.receiverOpen then
    if c.queue.length ≤ buffer then .ready (.ok ()) else .pending
  else .ready (.error .disconnected)

/-- Append an item. -/
def push (c : Channel α) (a : α) : Channel α :=
  { c with queue := c.queue ++ [a], log := c.log ++ [a] }

/-- The sender of a bounded channel sends an item. -/
def startSend (c : Channel α) (buffer : Nat) (a : α) :
    Except SendError Unit × Channel α :=
  if c.senderOpen && c.receiverOpen then
    if c.queue.length ≤ buffer then (.ok (), c.push a) else (.error .full, c)
  else (.error .disconnected, c)

/-- The sender of a bounded channel waits until it may send again; once the
receiver is gone there is nothing to wait for. -/
def pollFlush (c : Channel α) (buffer : Nat) : Poll (Except SendError Unit) :=
  match c.pollReady buffer with
  | .ready (.error .disconnected) => .ready (.ok ())
  | answer => answer

/-- The sender of an unbounded channel sends an item. -/
def unboundedSend (c : Channel α) (a : α) : Except SendError Unit × Channel α :=
  if c.senderOpen && c.receiverOpen then (.ok (), c.push a)
  else (.error .disconnected, c)

/-- The sender is dropped, or disconnects. -/
def dropSender (c : Channel α) : Channel α := { c with senderOpen := false }

/-- The receiver is dropped, and with it everything still buffered. -/
def dropReceiver (c : Channel α) : Channel α :=
  { c with queue := [], receiverOpen := false }

/-! ### What each operation does to each part -/

section Projections

variable (c : Channel α) (a : α)

@[simp] theorem push_queue : (c.push a).queue = c.queue ++ [a] := rfl
@[simp] theorem push_log : (c.push a).log = c.log ++ [a] := rfl
@[simp] theorem dropSender_receiverOpen : c.dropSender.receiverOpen = c.receiverOpen := rfl
@[simp] theorem dropReceiver_queue : c.dropReceiver.queue = [] := rfl

end Projections

end Channel

end Async
