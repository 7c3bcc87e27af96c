/-
YamuxLowMem/IdAllocation.lean

The identifiers that `open_stream` gives out, call after call.

The counter is a `u32` that goes up in steps of two.  An odd counter never
meets 0, and after 2^31 calls it stands at 1 again.  An even counter does meet
0 and is set to 2, so it comes round one call earlier.  No other move of a
session touches it: whatever happens in between, the call with `n` calls before
it gives out `openedId n`.
-/
import YamuxLowMem.StreamIds

namespace YamuxLowMem

/-! ### Single identifiers -/

theorem openedId_ne_zero (isServer : Bool) (n : Nat) : (openedId isServer n).val ≠ 0 := by
  rw [ne_eq, ← UInt32.toNat_inj, openedId_toNat]
  cases isServer <;> simp

theorem openedId_parity (isServer : Bool) (n : Nat) :
    (openedId isServer n).val.toNat % 2 = if isServer then 0 else 1 := by
  rw [openedId_toNat, Nat.add_mul_mod_self_left]
  cases isServer <;> rfl

/-- Fewer calls in a row than the counter has values give out different
identifiers. -/
theorem openedId_nodup {isServer : Bool} {k : Nat} (n : Nat) (hk : k ≤ idCount isServer) :
    ((List.range' n k).map (openedId isServer)).Nodup := by
  refine List.Nodup.map_on ?_ List.nodup_range'
  intro i hi j hj heq
  obtain ⟨hni, hik⟩ := List.mem_range'_1.mp hi
  obtain ⟨hnj, hjk⟩ := List.mem_range'_1.mp hj
  rcases Nat.lt_trichotomy i j with hlt | hij | hlt
  · exact absurd heq (openedId_ne hlt (by omega))
  · exact hij
  · exact absurd heq.symm (openedId_ne hlt (by omega))

/-! ### The identifiers of a run -/

namespace YamuxSession

variable {s s' : YamuxSession} {moves : List Move} {isServer : Bool} {maxWriteBuffer n : Nat}

/-- The stream that a call of `open_stream` returns. -/
def openedStream (s : YamuxSession) : YamuxStream :=
  (StreamPair.openStream ⟨s.nextStreamId⟩).handle

/-- The identifiers of the streams that the calls of `open_stream` in a run
return, in order. -/
def openedIds (s : YamuxSession) : List Move → List StreamID
  | [] => []
  | m :: moves =>
      (if m.isOpenStream then [s.openedStream.id] else []) ++
        (s.move m).elim [] (·.openedIds moves)

/-- The stream returned is the one registered. -/
theorem openStream_registers (s : YamuxSession) :
    (s.openStream.streams.lookup s.openedStream.id).map StreamPair.handle =
      some s.openedStream := by
  have hlookup : s.openStream.streams.lookup ⟨s.nextStreamId⟩ =
      some (StreamPair.openStream ⟨s.nextStreamId⟩) := Finmap.lookup_insert _
  exact congrArg (Option.map StreamPair.handle) hlookup

theorem openedIds_eq (hs : (sessionMachine isServer maxWriteBuffer anything).Reachable s)
    (hnext : s.nextStreamId = (openedId isServer n).val) (hrun : s.run moves = some s') :
    s.openedIds moves =
      (List.range' n (moves.countP Move.isOpenStream)).map (openedId isServer) := by
  induction moves generalizing s n with
  | nil => rfl
  | cons m moves ih =>
      obtain ⟨hpossible, s₁, hmove, hrest⟩ := run_cons.mp hrun
      have hnext₁ := move_nextStreamId (sessionMachine_reachable hs).wf hnext hmove
      have hids := ih (hs.step ⟨m, hpossible, trivial, hmove⟩) hnext₁ hrest
      have hid : s.openedStream.id = openedId isServer n := congrArg StreamID.mk hnext
      rw [openedIds, hmove, Option.elim_some, hids, List.countP_cons]
      cases m.isOpenStream with
      | true => exact congrArg (· :: _) hid
      | false => rfl

/-- `open_stream` can be called any number of times. -/
theorem exists_opens (s : YamuxSession) (n : Nat) :
    ∃ moves s', s.run moves = some s' ∧ moves.countP Move.isOpenStream = n := by
  induction n generalizing s with
  | zero => exact ⟨[], s, rfl, rfl⟩
  | succ n ih =>
      obtain ⟨moves, s', hrun, hcount⟩ := ih s.openStream
      exact ⟨.openStream :: moves, s', hrun, by rw [List.countP_cons, hcount]; rfl⟩

end YamuxSession

/-- In every run of a session the calls of `open_stream` give out, in order,
1, 3, 5 and so on up to 2^32 - 1 as a client, 2, 4, 6 and so on up to 2^32 - 2
as a server, and then the same again.  None of them is 0 or has the parity of
the other side, and no two of 2^31 - 1 in a row are the same. -/
theorem open_stream_ids (isServer : Bool) (maxWriteBuffer : Nat) (moves : List Move)
    {s : YamuxSession}
    (hrun : (YamuxSession.new Io.new isServer maxWriteBuffer).run moves = some s) :
    let ids := (YamuxSession.new Io.new isServer maxWriteBuffer).openedIds moves
    ids.length = moves.countP Move.isOpenStream ∧
    (∀ n id, ids[n]? = some id →
      id.val.toNat = if isServer then 2 + 2 * (n % (2 ^ 31 - 1)) else 1 + 2 * (n % 2 ^ 31)) ∧
    (∀ id ∈ ids, id.val ≠ 0 ∧ id.val.toNat % 2 = if isServer then 0 else 1) ∧
    ∀ window, window <:+: ids → window.length ≤ 2 ^ 31 - 1 → window.Nodup := by
  intro ids
  have hids : ids = (List.range' 0 (moves.countP Move.isOpenStream)).map (openedId isServer) :=
    YamuxSession.openedIds_eq (.init rfl) (by cases isServer <;> rfl) hrun
  rw [hids]
  refine ⟨by simp, ?_, ?_, ?_⟩
  · intro n id hid
    rw [List.getElem?_map, Option.map_eq_some_iff] at hid
    obtain ⟨k, hk, rfl⟩ := hid
    obtain ⟨hlt, hget⟩ := List.getElem?_eq_some_iff.mp hk
    obtain rfl : n = k := by simpa using hget
    rw [openedId_toNat]
    cases isServer <;> rfl
  · intro id hid
    obtain ⟨k, -, rfl⟩ := List.mem_map.mp hid
    exact ⟨openedId_ne_zero isServer k, openedId_parity isServer k⟩
  · rintro window ⟨before, after, hsplit⟩ hlen
    -- the window is what as many calls in a row have given out
    obtain ⟨init, _, hrange, hinit, -⟩ := List.append_eq_map_iff.mp hsplit
    obtain ⟨_, calls, rfl, -, rfl⟩ := List.map_eq_append_iff.mp hinit
    obtain ⟨m, -, hm, -⟩ := List.range'_eq_append_iff.mp hrange
    obtain ⟨k, -, -, rfl⟩ := List.range'_eq_append_iff.mp hm.symm
    rw [List.length_map, List.length_range'] at hlen
    apply openedId_nodup
    apply Nat.le_trans hlen
    cases isServer <;> simp [idCount]

/-- The counter of a server comes round: the call with 2^31 - 1 calls before
it gives out 2 again. -/
theorem open_stream_ids_turn :
    ∃ moves s, (YamuxSession.server Io.new 0).run moves = some s ∧
      ((YamuxSession.server Io.new 0).openedIds moves)[2147483647]? = some ⟨2⟩ := by
  obtain ⟨moves, s, hrun, hcount⟩ :=
    YamuxSession.exists_opens (YamuxSession.server Io.new 0) 2147483648
  obtain ⟨hlen, hvals, -⟩ := open_stream_ids true 0 moves hrun
  have hlt : 2147483647 < ((YamuxSession.server Io.new 0).openedIds moves).length := by
    rw [YamuxSession.server, hlen, hcount]
    exact Nat.lt_succ_self _
  have hval := hvals 2147483647 _ (List.getElem?_eq_getElem hlt)
  refine ⟨moves, s, hrun, ?_⟩
  rw [List.getElem?_eq_getElem hlt]
  exact congrArg (some ∘ StreamID.mk) (UInt32.toNat_inj.mp hval)

end YamuxLowMem
