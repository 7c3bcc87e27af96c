/-
YamuxLowMem/Events.lean

Measures of event sequences, and the shape of what a head emits.

A sequence of stream events carries payload, announces payload, returns credit
and raises flags; all of these are taken event by event.  `eventsOn` picks the
events of one stream out of a sequence of frames.  `Blocks` is the shape of
outgoing sequences: a data header is followed at once by one chunk of the
announced length.
-/
import YamuxLowMem.Stream
import Mathlib.Algebra.BigOperators.Group.List.Basic

namespace YamuxLowMem

namespace FrameStreamEvent

/-- Does the event carry the flag? -/
def carries (flag : Flags → Bool) (e : FrameStreamEvent) : Bool := (e.flags.map flag).getD false

/-- The payload bytes of an event. -/
def payload : FrameStreamEvent → Bytes
  | dataChunk chunk => chunk
  | _ => []

/-- The payload bytes an event announces. -/
def announced : FrameStreamEvent → Nat
  | data _ size => size.toNat
  | _ => 0

/-- What an event adds to the peer's send window. -/
def delta : FrameStreamEvent → Nat
  | windowUpdate _ delta => delta.toNat
  | _ => 0

/-- Credit for received payload: a window update without flags. -/
def credit : FrameStreamEvent → Nat
  | windowUpdate flags delta => if flags = Flags.empty then delta.toNat else 0
  | _ => 0

end FrameStreamEvent

/-- A measure summed over a sequence. -/
def total (f : FrameStreamEvent → Nat) (es : List FrameStreamEvent) : Nat := (es.map f).sum

/-- All payload bytes of a sequence. -/
def payloadOf (es : List FrameStreamEvent) : Bytes := es.flatMap FrameStreamEvent.payload

/-- Does any event of a sequence carry the flag? -/
def carried (flag : Flags → Bool) (es : List FrameStreamEvent) : Bool :=
  es.any (FrameStreamEvent.carries flag)

section Measures

variable (f : FrameStreamEvent → Nat) (flag : Flags → Bool) (e : FrameStreamEvent)
  (es es' : List FrameStreamEvent)

@[simp] theorem total_nil : total f [] = 0 := rfl

@[simp] theorem total_cons : total f (e :: es) = f e + total f es := by simp [total]

@[simp] theorem total_append : total f (es ++ es') = total f es + total f es' := by simp [total]

@[simp] theorem payloadOf_nil : payloadOf [] = [] := rfl

@[simp] theorem payloadOf_cons : payloadOf (e :: es) = e.payload ++ payloadOf es := by
  simp [payloadOf]

@[simp] theorem payloadOf_append : payloadOf (es ++ es') = payloadOf es ++ payloadOf es' := by
  simp [payloadOf]

@[simp] theorem carried_nil : carried flag [] = false := rfl

@[simp] theorem carried_cons : carried flag (e :: es) = (e.carries flag || carried flag es) := rfl

@[simp] theorem carried_append :
    carried flag (es ++ es') = (carried flag es || carried flag es') := by
  simp [carried]

end Measures

/-! ### One stream of many -/

/-- The events of one stream in a sequence of frames. -/
def eventsOn (id : StreamID) (fs : List Frame) : List FrameStreamEvent :=
  fs.filterMap fun
    | .stream id' event => if id' = id then some event else none
    | .session _ => none

section EventsOn

variable (id : StreamID) (fs fs' : List Frame)

@[simp] theorem eventsOn_nil : eventsOn id [] = [] := rfl

@[simp] theorem eventsOn_append :
    eventsOn id (fs ++ fs') = eventsOn id fs ++ eventsOn id fs' := List.filterMap_append

@[simp] theorem eventsOn_session (event : FrameSessionEvent) :
    eventsOn id (.session event :: fs) = eventsOn id fs := rfl

@[simp] theorem eventsOn_self (event : FrameStreamEvent) :
    eventsOn id (.stream id event :: fs) = event :: eventsOn id fs := by
  simp [eventsOn]

theorem eventsOn_ne {id' : StreamID} (hid : id' ≠ id) (event : FrameStreamEvent) :
    eventsOn id (.stream id' event :: fs) = eventsOn id fs := by
  simp [eventsOn, hid]

/-! One more frame at the end. -/

theorem eventsOn_concat_session (event : FrameSessionEvent) :
    eventsOn id (fs ++ [.session event]) = eventsOn id fs := by
  rw [eventsOn_append, eventsOn_session, eventsOn_nil, List.append_nil]

theorem eventsOn_concat_self (event : FrameStreamEvent) :
    eventsOn id (fs ++ [.stream id event]) = eventsOn id fs ++ [event] := by
  rw [eventsOn_append, eventsOn_self, eventsOn_nil]

theorem eventsOn_concat_ne {id' : StreamID} (hid : id' ≠ id) (event : FrameStreamEvent) :
    eventsOn id (fs ++ [.stream id' event]) = eventsOn id fs := by
  rw [eventsOn_append, eventsOn_ne id [] hid, eventsOn_nil, List.append_nil]

theorem mem_eventsOn {event : FrameStreamEvent} :
    event ∈ eventsOn id fs ↔ Frame.stream id event ∈ fs := by
  induction fs with
  | nil => simp
  | cons f fs ih =>
      match f with
      | .session e => simp [ih]
      | .stream id' e =>
          by_cases hid : id' = id
          · subst hid
            simp [ih]
          · simp [eventsOn_ne id fs hid, ih, Ne.symm hid]

/-- What a head yields is on its own stream. -/
theorem eventsOn_map (events : List FrameStreamEvent) :
    eventsOn id (events.map (Frame.stream id)) = events := by
  induction events with
  | nil => rfl
  | cons e events ih => rw [List.map_cons, eventsOn_self, ih]

theorem eventsOn_map_ne {id' : StreamID} (hid : id' ≠ id) (events : List FrameStreamEvent) :
    eventsOn id (events.map (Frame.stream id')) = [] := by
  induction events with
  | nil => rfl
  | cons e events ih => rw [List.map_cons, eventsOn_ne id _ hid, ih]

end EventsOn

/-! ### The shape of what is sent -/

/-- Window updates, and data headers each with its one chunk. -/
inductive Blocks : List FrameStreamEvent → Prop where
  | nil : Blocks []
  | control (flags : Flags) (delta : UInt32) {es : List FrameStreamEvent} :
      Blocks es → Blocks (.windowUpdate flags delta :: es)
  | payload {chunk : Bytes} {es : List FrameStreamEvent} :
      chunk ≠ [] → chunk.length ≤ defaultChunkCapacity → Blocks es →
      Blocks (.data Flags.empty (UInt32.ofNat chunk.length) :: .dataChunk chunk :: es)

namespace Blocks

variable {es es' : List FrameStreamEvent}

theorem append (h : Blocks es) (h' : Blocks es') : Blocks (es ++ es') := by
  induction h with
  | nil => exact h'
  | control flags delta _ ih => exact .control flags delta ih
  | payload hne hlen _ ih => exact .payload hne hlen ih

/-- A block sequence announces exactly the payload it carries. -/
theorem announced_eq (h : Blocks es) :
    total FrameStreamEvent.announced es = (payloadOf es).length := by
  induction h with
  | nil => rfl
  | control flags delta _ ih =>
      simpa [FrameStreamEvent.announced, FrameStreamEvent.payload] using ih
  | @payload chunk es hne hlen _ ih =>
      have hlt : chunk.length < 2 ^ 32 := Nat.lt_of_le_of_lt hlen (by decide)
      simpa [FrameStreamEvent.announced, FrameStreamEvent.payload, ih] using hlt

end Blocks

end YamuxLowMem
