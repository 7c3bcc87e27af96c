/-
YamuxLowMem/DrainOrder.lean

The order in which the streams map is iterated.

The entries of a `HashMap` come in no specified order.  The closed form of the
draining mentions the order in one place only: in every order the same heads are
left in the same states and the same are removed, and the frames come in the
same blocks, one for each stream; only the blocks are arranged by it.
-/
import YamuxLowMem.Drain
import YamuxLowMem.Outbound

namespace YamuxLowMem

open Async

/-- In a reachable session each block is whole: a header is followed by its chunk. -/
theorem YamuxSession.block_frameBlocks {s : YamuxSession} (hp : PairsOk s) (id : StreamID) :
    FrameBlocks (s.block id) := by
  rw [block]
  split
  · rename_i p hlookup
    have hlive := hp.registered id p hlookup
    exact .of_blocks id (hlive.drained hlive.drain).2
  · exact .nil

theorem IsOrder.perm {s : YamuxSession} {order order' : List StreamID} (h : IsOrder s order)
    (h' : IsOrder s order') : order.Perm order' :=
  List.perm_of_nodup_nodup_toFinset_eq h.1 h'.1 (h.2.trans h'.2.symm)

/-- Two sessions that differ in nothing but how the frames of different streams
are arranged in the queue, and in the order in which handles lost their heads. -/
structure SamePerStream (s s' : YamuxSession) : Prop where
  events : ∀ id, eventsOn id s.outQueue = eventsOn id s'.outQueue
  streams : s.streams = s'.streams
  dropped : s.dropped.Perm s'.dropped
  frame : s' = { s with outQueue := s'.outQueue, dropped := s'.dropped }

/-- In every state, whichever of two orders the streams map is iterated in: the
queue grows by one block for each stream, the same in both and arranged by the
order; the same ids are found closed; and the same is left of each stream.  In a
state that a run can reach, every data header is followed at once by its chunk,
in each block and in all that is sent and queued. -/
theorem drain_order_independent {s : YamuxSession} {order order' : List StreamID}
    (h : IsOrder s order) (h' : IsOrder s order') :
    (s.drainAll order).outQueue = s.outQueue ++ order.flatMap s.block ∧
      (s.drainAll order').outQueue = s.outQueue ++ order'.flatMap s.block ∧
      order.Perm order' ∧
      (∀ id, id ∈ (s.drainHeads order).2 ↔ id ∈ (s.drainHeads order').2) ∧
      SamePerStream (s.drainAll order) (s.drainAll order') ∧
      ∀ isServer maxWriteBuffer, SessionReachable isServer maxWriteBuffer anything s →
        (∀ id, FrameBlocks (s.block id)) ∧
        FrameBlocks ((s.drainAll order).transport.sent ++ (s.drainAll order).outQueue) := by
  have hperm := h.perm h'
  obtain ⟨hclosed, hqueue, hlookup, hdropped, hframe⟩ := YamuxSession.drainAll_spec h
  obtain ⟨hclosed', hqueue', hlookup', hdropped', hframe'⟩ := YamuxSession.drainAll_spec h'
  have hfilter := hperm.filter s.foundClosed
  have hstreams : (s.drainAll order).streams = (s.drainAll order').streams := by
    apply Finmap.ext_lookup
    intro id
    simp only [hlookup, hlookup', hfilter.mem_iff]
  refine ⟨hqueue, hqueue', hperm, ?_, ⟨?_, hstreams, ?_, ?_⟩, ?_⟩
  · intro id
    rw [hclosed, hclosed']
    exact hfilter.mem_iff
  · intro id
    rw [hqueue, hqueue', eventsOn_append, eventsOn_append, YamuxSession.eventsOn_blocks h.1,
      YamuxSession.eventsOn_blocks h'.1]
    simp only [hperm.mem_iff]
  · rw [hdropped, hdropped']
    exact (hfilter.flatMap_right _).append_left _
  · rw [hframe', hframe, hstreams]
  · intro isServer maxWriteBuffer hreach
    exact ⟨YamuxSession.block_frameBlocks hreach.pairsOk,
      (hreach.pollSteps (s.drainAll_steps order)).outbound.wellFormed⟩

/-- Two streams are opened; they are drained one way round and the other. -/
theorem drain_order_independent_opened :
    let s := (YamuxSession.new Io.new false 0).openStream.openStream
    (s.drainAll [⟨1⟩, ⟨3⟩]).outQueue ≠ (s.drainAll [⟨3⟩, ⟨1⟩]).outQueue ∧
      SamePerStream (s.drainAll [⟨1⟩, ⟨3⟩]) (s.drainAll [⟨3⟩, ⟨1⟩]) ∧
      FrameBlocks ((s.drainAll [⟨1⟩, ⟨3⟩]).transport.sent ++
        (s.drainAll [⟨1⟩, ⟨3⟩]).outQueue) := by
  intro s
  have hreach : SessionReachable false 0 anything s :=
    .step (.step (.init rfl) (.openStream trivial)) (.openStream trivial)
  have horder : IsOrder s [⟨1⟩, ⟨3⟩] := by decide +kernel
  have horder' : IsOrder s [⟨3⟩, ⟨1⟩] := by decide +kernel
  obtain ⟨-, -, -, -, hsame, hblocks⟩ := drain_order_independent horder horder'
  exact ⟨by decide +kernel, hsame, (hblocks false 0 hreach).2⟩

end YamuxLowMem
