/-
YamuxLowMem/StreamsOf.lean

The streams of an id, in the order in which the session has had them.

A peer may use an id again and again, and `open_stream` takes up an id that is
in use once its counter has turned, so in the course of a run there can be
several streams of one id.  `streamsOf` lists them.  What a change of the
session does to the list is said once here: it goes on with the last stream,
takes its head away, adds a stream, or moves one of the handles.
-/
import YamuxLowMem.Drain

namespace YamuxLowMem

namespace YamuxSession

/-- The streams a session has had under an id; the last one may be in use. -/
def streamsOf (s : YamuxSession) (id : StreamID) : List StreamPair :=
  s.dropped.filter (fun p => p.handle.id = id) ++ (s.streams.lookup id).toList

section StreamsOf

variable {β : Type} (f : StreamPair → β) {s s' : YamuxSession} {id id' : StreamID}
  {p q : StreamPair}

theorem streamsOf_congr (hstreams : s'.streams = s.streams) (hdropped : s'.dropped = s.dropped)
    (id : StreamID) : s'.streamsOf id = s.streamsOf id := by
  rw [streamsOf, hstreams, hdropped]
  rfl

theorem streamsOf_logError (result : Except YamuxStreamHeadError Unit) :
    (s.logError id' result).streamsOf id = s.streamsOf id := by
  cases result <;> rfl

theorem streamsOf_of_lookup (hp : s.streams.lookup id = some p) :
    s.streamsOf id = s.dropped.filter (fun p => p.handle.id = id) ++ [p] := by
  rw [streamsOf, hp]
  rfl

theorem streamsOf_of_none (hp : s.streams.lookup id = none) :
    s.streamsOf id = s.dropped.filter (fun p => p.handle.id = id) := by
  rw [streamsOf, hp]
  exact List.append_nil _

theorem streamsOf_setStream_self (s : YamuxSession) (id : StreamID) (q : StreamPair) :
    (s.setStream id q).streamsOf id = s.dropped.filter (fun p => p.handle.id = id) ++ [q] :=
  streamsOf_of_lookup (Finmap.lookup_insert _)

theorem streamsOf_setStream_ne (hid : id ≠ id') (q : StreamPair) :
    (s.setStream id' q).streamsOf id = s.streamsOf id := by
  rw [streamsOf, setStream, Finmap.lookup_insert_of_ne _ hid]
  rfl

/-- A stream moves on in a way `f` does not see. -/
theorem map_setStream (hp : s.streams.lookup id' = some p) (hf : f q = f p) (id : StreamID) :
    ((s.setStream id' q).streamsOf id).map f = (s.streamsOf id).map f := by
  by_cases hid : id = id'
  · subst hid
    rw [streamsOf_setStream_self, streamsOf_of_lookup hp, List.map_append, List.map_append,
      List.map_singleton, List.map_singleton, hf]
  · rw [streamsOf_setStream_ne hid]

/-- A stream whose head is dropped stays at its place. -/
theorem streamsOf_removeStream_self (hid : ∀ p, s.streams.lookup id = some p → p.handle.id = id) :
    (s.removeStream id).streamsOf id = s.dropped.filter (fun p => p.handle.id = id) ++
      (s.streams.lookup id).toList.map StreamPair.dropHead := by
  have hnone : (s.removeStream id).streams.lookup id = none := Finmap.lookup_erase _ _
  rw [streamsOf_of_none hnone, removeStream_dropped, List.filter_append]
  cases hp : s.streams.lookup id with
  | none => rfl
  | some p =>
      have hhandle : p.dropHead.handle.id = id := hid p hp
      simp [hhandle]

theorem streamsOf_removeStream_ne (hid : ∀ p, s.streams.lookup id' = some p → p.handle.id = id')
    (hne : id ≠ id') : (s.removeStream id').streamsOf id = s.streamsOf id := by
  have hsame : (s.removeStream id').streams.lookup id = s.streams.lookup id :=
    Finmap.lookup_erase_ne hne
  rw [streamsOf, streamsOf, hsame, removeStream_dropped, List.filter_append]
  cases hp : s.streams.lookup id' with
  | none => simp
  | some p =>
      have hhandle : p.dropHead.handle.id ≠ id := fun h => hne (h.symm.trans (hid p hp))
      simp [hhandle]

theorem map_removeStream (hid : ∀ p, s.streams.lookup id' = some p → p.handle.id = id')
    (hf : ∀ p : StreamPair, f p.dropHead = f p) (id : StreamID) :
    ((s.removeStream id').streamsOf id).map f = (s.streamsOf id).map f := by
  by_cases heq : id = id'
  · subst heq
    rw [streamsOf_removeStream_self hid, streamsOf]
    simp [hf]
  · rw [streamsOf_removeStream_ne hid heq]

/-- A new stream comes behind the one it replaces. -/
theorem map_insertStream (hid : ∀ p, s.streams.lookup id' = some p → p.handle.id = id')
    (hf : ∀ p : StreamPair, f p.dropHead = f p) (q : StreamPair) (id : StreamID) :
    ((s.insertStream id' q).streamsOf id).map f =
      (s.streamsOf id).map f ++ if id = id' then [f q] else [] := by
  have hremove := map_removeStream f hid hf id
  have hdropped : (s.insertStream id' q).dropped = (s.removeStream id').dropped := rfl
  rw [← hremove, streamsOf, streamsOf, hdropped]
  by_cases heq : id = id'
  · subst heq
    have hlookup : (s.insertStream id q).streams.lookup id = some q := Finmap.lookup_insert _
    have hnone : (s.removeStream id).streams.lookup id = none := Finmap.lookup_erase _ _
    simp [hlookup, hnone]
  · have hlookup : (s.insertStream id' q).streams.lookup id =
        (s.removeStream id').streams.lookup id := by
      rw [insertStream, removeStream, Finmap.lookup_insert_of_ne _ heq, Finmap.lookup_erase_ne heq]
    simp [hlookup, heq]

/-- A handle is one stream's, and the others do not notice. -/
theorem handleOp_streamsOf (s : YamuxSession) (ref : HandleRef) (op : HandleOp) :
    ∃ id, (∀ id', id' ≠ id → (s.handleOp ref op).streamsOf id' = s.streamsOf id') ∧
      List.Forall₂ (fun p q => q = p ∨ q = p.handleOp op) (s.streamsOf id)
        ((s.handleOp ref op).streamsOf id) := by
  have hrefl : ∀ ps : List StreamPair,
      List.Forall₂ (fun p q => q = p ∨ q = p.handleOp op) ps ps :=
    fun ps => List.forall₂_same.mpr fun p _ => Or.inl rfl
  cases ref with
  | registered id =>
      rw [handleOp]
      cases hp : s.streams.lookup id with
      | none => exact ⟨id, fun _ _ => rfl, hrefl _⟩
      | some p =>
          refine ⟨id, fun id' hid => streamsOf_setStream_ne hid _, ?_⟩
          rw [streamsOf_setStream_self, streamsOf_of_lookup hp]
          apply List.rel_append (hrefl _)
          exact .cons (Or.inr rfl) .nil
  | dropped index =>
      -- by induction on the list of these streams
      have hmodify : ∀ (l : List StreamPair) (i : Nat), ∃ id,
          (∀ id', id' ≠ id → (l.modify i (·.handleOp op)).filter (fun p => p.handle.id = id') =
            l.filter (fun p => p.handle.id = id')) ∧
          List.Forall₂ (fun p q => q = p ∨ q = p.handleOp op)
            (l.filter (fun p => p.handle.id = id))
            ((l.modify i (·.handleOp op)).filter (fun p => p.handle.id = id)) := by
        intro l
        induction l with
        | nil => exact fun i => ⟨⟨0⟩, fun _ _ => by simp, by simp⟩
        | cons p l ih =>
            intro i
            cases i with
            | zero =>
                have hsame := p.handleOp_handleId op
                refine ⟨p.handle.id, fun id' hne => ?_, ?_⟩
                · simp only [List.modify_zero_cons, List.filter_cons, hsame,
                    decide_eq_false hne.symm, Bool.false_eq_true, if_false]
                · simp only [List.modify_zero_cons, List.filter_cons, hsame, decide_true, if_true]
                  exact .cons (Or.inr rfl) (hrefl _)
            | succ i =>
                obtain ⟨id, hothers, hid⟩ := ih i
                refine ⟨id, fun id' hne => ?_, ?_⟩
                · simp only [List.modify_succ_cons, List.filter_cons, hothers id' hne]
                · simp only [List.modify_succ_cons, List.filter_cons]
                  split
                  · exact .cons (Or.inl rfl) hid
                  · exact hid
      obtain ⟨id, hothers, hid⟩ := hmodify s.dropped index
      refine ⟨id, ?_, ?_⟩
      · intro id' hne
        show (s.dropped.modify index (·.handleOp op)).filter _ ++ _ = _
        rw [hothers id' hne]
        rfl
      · show List.Forall₂ _ _ ((s.dropped.modify index (·.handleOp op)).filter _ ++ _)
        exact List.rel_append hid (hrefl _)

/-- Handles can be used in ways `f` does not see. -/
theorem map_handleOp (ref : HandleRef) (op : HandleOp)
    (hf : ∀ p : StreamPair, f (p.handleOp op) = f p) (id : StreamID) :
    ((s.handleOp ref op).streamsOf id).map f = (s.streamsOf id).map f := by
  obtain ⟨id', hothers, hid'⟩ := s.handleOp_streamsOf ref op
  by_cases hid : id = id'
  · subst hid
    have hsame : ∀ {ps qs : List StreamPair},
        List.Forall₂ (fun p q => q = p ∨ q = p.handleOp op) ps qs → qs.map f = ps.map f := by
      intro ps qs hpq
      induction hpq with
      | nil => rfl
      | @cons p q _ _ hq _ ih =>
          have hfq : f q = f p := by
            rcases hq with rfl | rfl
            · rfl
            · exact hf p
          rw [List.map_cons, List.map_cons, hfq, ih]
    exact hsame hid'
  · rw [hothers id hid]

end StreamsOf

end YamuxSession

end YamuxLowMem
