/-
YamuxLowMem/Drain.lean

What draining the heads comes to.

The loop over the heads passes the session on from one to the next, and then the
ones found closed are removed one by one.  Draining a head touches its own entry
and the end of the queue, so both loops have a closed form: what becomes of each
entry, and one block of frames for each stream, in the order of the loop.
-/
import YamuxLowMem.SessionRun

namespace YamuxLowMem

open Async

namespace YamuxSession

variable {s : YamuxSession} {order ids : List StreamID}

/-! ### One stream -/

/-- A stream after its head has been drained. -/
def afterDrain (p : StreamPair) : StreamPair := (drainHead (drainWork p) p).2.2

/-- The frames that the head of one stream adds to the queue. -/
def block (s : YamuxSession) (id : StreamID) : List Frame :=
  match s.streams.lookup id with
  | some p => (drainHead (drainWork p) p).1.map (Frame.stream id)
  | none => []

/-- Does the head of the stream report the end? -/
def foundClosed (s : YamuxSession) (id : StreamID) : Bool :=
  match s.streams.lookup id with
  | some p => (drainHead (drainWork p) p).2.1
  | none => false

/-- The block of a stream depends on nothing but its entry. -/
theorem block_congr {s s' : YamuxSession} {id : StreamID}
    (h : s'.streams.lookup id = s.streams.lookup id) : s'.block id = s.block id := by
  rw [block, h, block]

theorem foundClosed_congr {s s' : YamuxSession} {id : StreamID}
    (h : s'.streams.lookup id = s.streams.lookup id) : s'.foundClosed id = s.foundClosed id := by
  rw [foundClosed, h, foundClosed]

theorem eventsOn_block_ne {id id' : StreamID} (h : id' ≠ id) : eventsOn id (s.block id') = [] := by
  rw [block]
  split
  · exact eventsOn_map_ne id h _
  · rfl

/-! ### All heads -/

/-- What the `for` loop over the heads comes to. -/
structure HeadsDrained (s : YamuxSession) (order : List StreamID) (s' : YamuxSession)
    (closedStream : List StreamID) : Prop where
  outQueue : s'.outQueue = s.outQueue ++ order.flatMap s.block
  lookup : ∀ id, s'.streams.lookup id =
    if id ∈ order then (s.streams.lookup id).map afterDrain else s.streams.lookup id
  closed : closedStream = order.filter s.foundClosed
  frame : s' = { s with streams := s'.streams, outQueue := s'.outQueue }

theorem drainHeads_spec (hnodup : order.Nodup) :
    HeadsDrained s order (s.drainHeads order).1 (s.drainHeads order).2 := by
  induction order generalizing s with
  | nil => exact ⟨(List.append_nil _).symm, fun _ => rfl, rfl, rfl⟩
  | cons id order ih =>
      obtain ⟨hid, hnodup'⟩ := List.nodup_cons.mp hnodup
      cases hp : s.streams.lookup id with
      | none =>
          obtain ⟨hqueue, hlookup, hclosed, hframe⟩ := ih (s := s) hnodup'
          have hblock : s.block id = [] := by rw [block, hp]
          have hopen : s.foundClosed id = false := by rw [foundClosed, hp]
          simp only [drainHeads, hp]
          refine ⟨?_, ?_, ?_, hframe⟩
          · rw [hqueue, List.flatMap_cons, hblock, List.nil_append]
          · intro id'
            rw [hlookup]
            by_cases heq : id' = id
            · subst heq
              rw [hp, Option.map_none, ite_self, ite_self]
            · simp only [List.mem_cons, heq, false_or]
          · rw [hclosed, List.filter_cons_of_neg (by rw [hopen]; exact Bool.false_ne_true)]
      | some p =>
          obtain ⟨hqueue, hlookup, hclosed, hframe⟩ := ih (s := (s.drainStream id p).1) hnodup'
          -- the other entries are as they were
          have hsame : ∀ id', id' ≠ id →
              (s.drainStream id p).1.streams.lookup id' = s.streams.lookup id' := by
            intro id' hne
            exact Finmap.lookup_insert_of_ne _ hne
          have hrest : ∀ id' ∈ order,
              (s.drainStream id p).1.streams.lookup id' = s.streams.lookup id' := by
            intro id' hmem
            exact hsame id' fun heq => hid (heq ▸ hmem)
          simp only [drainHeads, hp]
          refine ⟨?_, ?_, ?_, ?_⟩
          · have hblock : (s.drainStream id p).1.outQueue = s.outQueue ++ s.block id := by
              rw [block, hp]
              rfl
            rw [hqueue, hblock, List.flatMap_cons, List.append_assoc]
            congr 2
            exact List.flatMap_congr fun id' hmem => block_congr (hrest id' hmem)
          · intro id'
            rw [hlookup]
            by_cases heq : id' = id
            · subst heq
              rw [if_neg hid, if_pos List.mem_cons_self, hp]
              exact Finmap.lookup_insert _
            · rw [hsame id' heq]
              simp only [List.mem_cons, heq, false_or]
          · have hfilter : order.filter (s.drainStream id p).1.foundClosed =
                order.filter s.foundClosed :=
              List.filter_congr fun id' hmem => foundClosed_congr (hrest id' hmem)
            have hfound : s.foundClosed id = (s.drainStream id p).2 := by
              rw [foundClosed, hp]
              rfl
            rw [hclosed, hfilter, List.filter_cons, hfound]
          · rw [hframe]
            rfl

theorem mem_drainHeads {id : StreamID} :
    id ∈ (s.drainHeads order).1.streams ↔ id ∈ s.streams := by
  induction order generalizing s with
  | nil => exact Iff.rfl
  | cons id' order ih =>
      cases hp : s.streams.lookup id' with
      | none =>
          simp only [drainHeads, hp]
          exact ih
      | some p =>
          simp only [drainHeads, hp]
          exact ih.trans (mem_setStream (mem_of_lookup hp))

/-! ### Removing the closed ones -/

/-- What forgetting streams comes to. -/
structure Removed (s : YamuxSession) (ids : List StreamID) (s' : YamuxSession) : Prop where
  lookup : ∀ id, s'.streams.lookup id = if id ∈ ids then none else s.streams.lookup id
  dropped : s'.dropped =
    s.dropped ++ ids.flatMap fun id => (s.streams.lookup id).toList.map StreamPair.dropHead
  frame : s' = { s with streams := s'.streams, dropped := s'.dropped }

theorem removeStream_dropped (id : StreamID) : (s.removeStream id).dropped =
    s.dropped ++ (s.streams.lookup id).toList.map StreamPair.dropHead := by
  rw [removeStream]
  cases s.streams.lookup id with
  | none => exact (List.append_nil _).symm
  | some p => rfl

theorem removeAll_spec (hnodup : ids.Nodup) : Removed s ids (ids.foldl removeStream s) := by
  induction ids generalizing s with
  | nil => exact ⟨fun _ => rfl, (List.append_nil _).symm, rfl⟩
  | cons id ids ih =>
      obtain ⟨hid, hnodup'⟩ := List.nodup_cons.mp hnodup
      obtain ⟨hlookup, hdropped, hframe⟩ := ih (s := s.removeStream id) hnodup'
      have hsame : ∀ id', id' ≠ id →
          (s.removeStream id).streams.lookup id' = s.streams.lookup id' := by
        intro id' hne
        exact Finmap.lookup_erase_ne hne
      rw [List.foldl_cons]
      refine ⟨?_, ?_, ?_⟩
      · intro id'
        rw [hlookup]
        by_cases heq : id' = id
        · subst heq
          rw [if_neg hid, if_pos List.mem_cons_self]
          exact Finmap.lookup_erase _ _
        · rw [hsame id' heq]
          simp only [List.mem_cons, heq, false_or]
      · rw [hdropped, removeStream_dropped, List.flatMap_cons, List.append_assoc]
        congr 2
        apply List.flatMap_congr
        intro id' hmem
        rw [hsame id' fun heq => hid (heq ▸ hmem)]
      · rw [hframe]
        rfl

/-- Draining forgets streams and registers none. -/
theorem mem_drainAll {id : StreamID} (h : id ∈ (s.drainAll order).streams) : id ∈ s.streams := by
  have hremove : ∀ (ids : List StreamID) (s : YamuxSession),
      id ∈ (ids.foldl removeStream s).streams → id ∈ s.streams := by
    intro ids
    induction ids with
    | nil => exact fun _ h => h
    | cons id' ids ih => exact fun s h => (Finmap.mem_erase.mp (ih (s.removeStream id') h)).2
  exact mem_drainHeads.mp (hremove _ _ h)

/-! ### The whole of it -/

/-- The events of one stream in blocks that are arranged in some order. -/
theorem eventsOn_blocks (hnodup : order.Nodup) (id : StreamID) :
    eventsOn id (order.flatMap s.block) =
      if id ∈ order then eventsOn id (s.block id) else [] := by
  induction order with
  | nil => rfl
  | cons id' order ih =>
      obtain ⟨hid', hnodup'⟩ := List.nodup_cons.mp hnodup
      rw [List.flatMap_cons, eventsOn_append, ih hnodup']
      by_cases heq : id' = id
      · subst heq
        rw [if_neg hid', if_pos List.mem_cons_self, List.append_nil]
      · rw [eventsOn_block_ne heq, List.nil_append]
        simp only [List.mem_cons, Ne.symm heq, false_or]

/-- The heads found closed are removed. -/
theorem drainAll_removed (hnodup : order.Nodup) :
    Removed (s.drainHeads order).1 (order.filter s.foundClosed) (s.drainAll order) := by
  have hall : s.drainAll order =
      (s.drainHeads order).2.foldl removeStream (s.drainHeads order).1 := rfl
  rw [hall, (drainHeads_spec hnodup).closed]
  exact removeAll_spec (hnodup.filter _)

/-- What the drained session comes to, in any order of the streams. -/
theorem drainAll_spec (h : IsOrder s order) :
    let closed := order.filter s.foundClosed
    (s.drainHeads order).2 = closed ∧
      (s.drainAll order).outQueue = s.outQueue ++ order.flatMap s.block ∧
      (∀ id, (s.drainAll order).streams.lookup id =
        if id ∈ closed then none else (s.streams.lookup id).map afterDrain) ∧
      (s.drainAll order).dropped = s.dropped ++ closed.flatMap (fun id =>
        ((s.streams.lookup id).map afterDrain).toList.map StreamPair.dropHead) ∧
      s.drainAll order = { s with
        streams := (s.drainAll order).streams
        outQueue := (s.drainAll order).outQueue
        dropped := (s.drainAll order).dropped } := by
  intro closed
  obtain ⟨hqueue, hlookup, hclosed, hframe⟩ := drainHeads_spec (s := s) h.1
  have hremoved : Removed (s.drainHeads order).1 closed (s.drainAll order) :=
    drainAll_removed h.1
  -- an id that is not in the order is not registered
  have hafter : ∀ id, (s.drainHeads order).1.streams.lookup id =
      (s.streams.lookup id).map afterDrain := by
    intro id
    rw [hlookup]
    split
    · rfl
    · rename_i hmem
      have hnone : s.streams.lookup id = none := by
        rw [Finmap.lookup_eq_none, ← Finmap.mem_keys, ← h.2, List.mem_toFinset]
        exact hmem
      rw [hnone]
      rfl
  refine ⟨hclosed, ?_, ?_, ?_, ?_⟩
  · rw [hremoved.frame]
    exact hqueue
  · intro id
    rw [hremoved.lookup, hafter]
  · rw [hremoved.dropped, hframe]
    congr 1
    apply List.flatMap_congr
    intro id _
    rw [← hafter id]
  · rw [hremoved.frame, hframe]

end YamuxSession

end YamuxLowMem
