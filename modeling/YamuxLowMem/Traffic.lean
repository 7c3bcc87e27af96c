/-
YamuxLowMem/Traffic.lean

How much two sessions have to say to each other.

A stream costs two headers, one to begin with and one for the `FIN`; each chunk
its handle writes costs one; and each window update pays for a fixed amount of
payload that has come in.  Besides that a session sends nothing but `GoAway`s.
So the bytes on the wire are bounded by what the applications do, whatever the
schedule is.
-/
import YamuxLowMem.EndToEnd
import YamuxLowMem.Agreement
import Mathlib.Algebra.BigOperators.Group.Finset.Piecewise
import Mathlib.Algebra.Order.BigOperators.Group.Finset

namespace YamuxLowMem

open Async

/-- Longer pieces make a longer sequence. -/
theorem length_flatMap_le {α β γ : Type*} {f : α → List β} {g : α → List γ} {l : List α}
    (h : ∀ a ∈ l, (f a).length ≤ (g a).length) :
    (l.flatMap f).length ≤ (l.flatMap g).length := by
  rw [List.length_flatMap, List.length_flatMap]
  exact List.sum_le_sum h

/-- A sequence of pieces of which none is empty. -/
theorem length_le_flatMap {α β : Type*} {f : α → List β} {l : List α} (h : ∀ a ∈ l, f a ≠ []) :
    l.length ≤ (l.flatMap f).length := by
  have hle := length_flatMap_le (f := fun a => [a]) fun a ha => List.length_pos_iff.mpr (h a ha)
  rwa [List.flatMap_singleton'] at hle

/-! ### Measures -/

namespace FrameStreamEvent

/-- The length of the encoding of an event. -/
def encodedLen : FrameStreamEvent → Nat
  | dataChunk chunk => chunk.length
  | _ => headerLen

/-- Counts data headers. -/
def headers : FrameStreamEvent → Nat
  | data _ _ => 1
  | _ => 0

/-- Counts the window updates that give back credit. -/
def grants : FrameStreamEvent → Nat
  | windowUpdate flags _ => if flags = Flags.empty then 1 else 0
  | _ => 0

end FrameStreamEvent

/-- The payload that one window update stands for, at least. -/
def grantLen : Nat := defaultWindowUpdateThreshold.toNat - defaultChunkCapacity

section Accounting

variable {opened : Bool} {id : StreamID} {p q : StreamPair}

/-! ### One stream -/

/-- A half that is closed stays closed. -/
theorem PairStep.localOpen (h : PairStep p q) (hq : q.head.state.localOpen = true) :
    p.head.state.localOpen = true := by
  cases h with
  | takeEnd | takeNone =>
      rw [YamuxStreamHead.tryCloseLocal_eq] at hq
      cases hq
  | header | window =>
      have hboth : (p.head.state.localOpen && _) = true := hq
      rw [Bool.and_eq_true] at hboth
      exact hboth.1
  | chunk =>
      rw [YamuxStreamHead.markReceivedBytes_eq] at hq
      exact hq
  | _ => exact hq

namespace PairReachable

open FrameStreamEvent

/-- A header for the beginning, one for the `FIN`, and one for every chunk and
every window update. -/
theorem encodedLen_le (h : PairReachable opened id p) :
    total encodedLen p.history ≤ headerLen * ((if p.head.state.localOpen then 1 else 2) +
      total headers p.history + total grants p.history) + (payloadOf p.history).length := by
  refine h.invariant ?_ ?_
  · rintro p rfl
    cases opened <;> exact Nat.le_refl _
  · rintro p q hp hstep
    have hlocal := hstep.localOpen
    obtain ⟨new, hnew, hput⟩ := hstep.putOut
    rw [hnew, total_append, total_append, total_append, payloadOf_append, List.length_append]
    cases hput with
    | none =>
        simp only [total_nil, payloadOf_nil, List.length_nil, Nat.add_zero]
        grind
    | fin hopen hclosed =>
        simp only [hopen, hclosed, finEvent, total_cons, total_nil, payloadOf_cons, payloadOf_nil,
          encodedLen, headers, grants, payload, Flags.onlyFin, Flags.empty] at hp ⊢
        simp only [headerLen] at hp ⊢
        grind
    | block hq hne =>
        simp only [total_cons, total_nil, payloadOf_cons, payloadOf_nil, encodedLen, headers,
          grants, payload, headerLen] at hp ⊢
        grind
    | credit n =>
        simp only [creditEvent, total_cons, total_nil, payloadOf_cons, payloadOf_nil, encodedLen,
          headers, grants, payload, headerLen] at hp ⊢
        grind

/-- A data header is put out for a chunk that the handle has written. -/
theorem headers_le (h : PairReachable opened id p) :
    total headers p.history + p.up.queue.length ≤ p.up.log.length := by
  refine h.invariant ?_ ?_
  · rintro p rfl
    cases opened <;> exact Nat.le_refl _
  · rintro p q hp hstep
    simp only [StreamPair.history, total_append] at hp ⊢
    cases hstep with
    | yield _ ho =>
        rw [ho, total_cons] at hp
        simp only [total_append, total_cons, total_nil]
        omega
    | take _ hq =>
        rw [hq, List.length_cons] at hp
        simp only [YamuxStreamHead.sendChunk, total_append, total_cons, total_nil, headers]
        omega
    | takeEnd _ hq =>
        rw [hq, List.length_cons] at hp
        simp only [YamuxStreamHead.tryCloseLocal_eq, total_append]
        split <;> simp [headers, finEvent] <;> omega
    | takeNone =>
        simp only [YamuxStreamHead.tryCloseLocal_eq, total_append]
        split <;> simpa [headers, finEvent] using hp
    | header flags size | window flags delta =>
        simp only [YamuxStreamHead.flagged, total_append]
        split <;> simpa [headers] using hp
    | chunk bytes =>
        simp only [YamuxStreamHead.markReceivedBytes_eq, total_append]
        split <;> simpa [headers, creditEvent] using hp
    | write buf =>
        simp only [Channel.push, List.length_append, List.length_singleton]
        omega
    | dropHead =>
        simp only [StreamPair.dropHead]
        exact (Nat.le_add_right _ _).trans hp
    | _ => exact hp

/-- Every window update is paid for, and the receive counter is what has been
put by for the next one. -/
theorem grants_le (h : PairReachable opened id p) :
    total grants p.history * grantLen + p.head.window.recv ≤ (payloadOf p.inputs).length := by
  refine h.invariant ?_ ?_
  · rintro p rfl
    have hzero : 0 * grantLen + 0 ≤ 0 := by simp
    cases opened <;> exact hzero
  · rintro p q hp hstep
    simp only [StreamPair.history, total_append] at hp ⊢
    cases hstep with
    | yield _ ho =>
        rw [ho, total_cons, ← Nat.add_assoc] at hp
        simpa only [total_append, total_cons, total_nil, Nat.add_zero] using hp
    | take =>
        simpa only [YamuxStreamHead.sendChunk, total_append, total_cons, total_nil, grants,
          Nat.add_zero] using hp
    | takeEnd | takeNone =>
        simp only [YamuxStreamHead.tryCloseLocal_eq, total_append]
        split <;> simpa [grants, finEvent, Flags.onlyFin, Flags.empty] using hp
    | header flags size | window flags delta =>
        simp only [YamuxStreamHead.flagged, total_append, payloadOf_append]
        split <;> simpa [grants, payload, Flags.onlyFin, Flags.empty] using hp
    | chunk bytes =>
        have hpayload : (payloadOf (p.inputs ++ [.dataChunk bytes])).length =
            (payloadOf p.inputs).length + bytes.length := by
          simp [payload]
        rw [hpayload]
        simp only [YamuxStreamHead.markReceivedBytes_eq, total_append]
        cases hdue : p.head.dueCredit bytes.length with
        | true =>
            -- what was put by and what has come are enough for one more
            have henough : grantLen ≤ p.head.window.recv + bytes.length := by
              rw [YamuxStreamHead.dueCredit, decide_eq_true_eq] at hdue
              rw [grantLen]
              omega
            simp only [if_true, total_cons, total_nil, creditEvent, grants, ← Nat.add_assoc,
              Nat.add_mul] at hp ⊢
            omega
        | false =>
            simp only [Bool.false_eq_true, if_false, total_nil, Nat.add_zero]
            omega
    | _ => exact hp

/-- The chunks written are what was written. -/
theorem log_flatten (h : PairReachable opened id p) : p.up.log.flatten = p.handle.written := by
  refine h.invariant ?_ ?_
  · rintro p rfl
    cases opened <;> rfl
  · rintro p q hp hstep
    cases hstep with
    | write buf =>
        rw [Channel.push_log, List.flatten_append, List.flatten_singleton, hp]
    | _ => exact hp

end PairReachable

/-- What a stream may cost. -/
def StreamPair.share (p : StreamPair) : Nat :=
  headerLen * (2 + p.up.log.length + (payloadOf p.inputs).length / grantLen) +
    p.handle.written.length

open FrameStreamEvent in
theorem PairReachable.share_le (h : PairReachable opened id p) :
    total encodedLen p.history ≤ p.share := by
  have hall := h.encodedLen_le
  have hheaders := Nat.le_of_add_right_le h.headers_le
  have hgrants : total grants p.history ≤ (payloadOf p.inputs).length / grantLen := by
    rw [Nat.le_div_iff_mul_le (by decide)]
    exact Nat.le_of_add_right_le h.grants_le
  have hpayload := h.writtenInv.isPrefix.length_le
  have hfin : (if p.head.state.localOpen then 1 else 2) ≤ 2 := by split <;> decide
  calc total encodedLen p.history
      ≤ headerLen * ((if p.head.state.localOpen then 1 else 2) + total headers p.history +
          total grants p.history) + (payloadOf p.history).length := hall
    _ ≤ headerLen * (2 + p.up.log.length + (payloadOf p.inputs).length / grantLen) +
          p.handle.written.length := by gcongr

end Accounting

/-! ### One end -/

section Sessions

variable {s : YamuxSession} {id : StreamID}

/-- The ids a session has or had streams of. -/
def YamuxSession.ids (s : YamuxSession) : Finset StreamID :=
  s.streams.keys ∪ (s.dropped.map fun p => p.handle.id).toFinset

theorem YamuxSession.mem_ids : id ∈ s.ids ↔ ∃ p, s.Holds id p := by
  simp only [ids, Holds, Finset.mem_union, Finmap.mem_keys, List.mem_toFinset, List.mem_map,
    exists_or]
  rw [Finmap.mem_iff]

/-- The bytes of a sequence of frames, stream by stream. -/
theorem length_encoding {fs : List Frame} {ids : Finset StreamID}
    (hids : ∀ id, eventsOn id fs ≠ [] → id ∈ ids) :
    (encoding fs).length = headerLen * (sessionEvents fs).length +
      ∑ id ∈ ids, total FrameStreamEvent.encodedLen (eventsOn id fs) := by
  induction fs with
  | nil => simp [sessionEvents]
  | cons f fs ih =>
      cases f with
      | session event =>
          have ih := ih fun id hne => hids id hne
          have hlen : (Frame.session event).encode.length = headerLen := by
            cases event <;> exact Frame.length_encode rfl
          have hevents : sessionEvents (.session event :: fs) = event :: sessionEvents fs := rfl
          simp only [encoding_cons, List.length_append, hlen, ih, hevents, List.length_cons,
            eventsOn_session]
          grind
      | stream id event =>
          have hmem : id ∈ ids := hids id (by rw [eventsOn_self]; exact List.cons_ne_nil _ _)
          have ih := ih fun id' hne => hids id' fun hnil => hne <| by
            by_cases hid : id = id'
            · subst hid
              rw [eventsOn_self] at hnil
              cases hnil
            · rwa [eventsOn_ne id' fs hid] at hnil
          have hlen : (Frame.stream id event).encode.length = event.encodedLen := by
            cases event with
            | dataChunk chunk => rfl
            | data | windowUpdate => exact Frame.length_encode rfl
          -- the frame counts on one id
          have hone : ∀ id', total FrameStreamEvent.encodedLen
              (eventsOn id' (.stream id event :: fs)) =
                total FrameStreamEvent.encodedLen (eventsOn id' fs) +
                  if id' = id then event.encodedLen else 0 := by
            intro id'
            by_cases hid : id' = id
            · subst hid
              rw [eventsOn_self, total_cons, if_pos rfl, Nat.add_comm]
            · rw [eventsOn_ne id' fs (Ne.symm hid), if_neg hid, Nat.add_zero]
          have hevents : sessionEvents (.stream id event :: fs) = sessionEvents fs := rfl
          simp only [encoding_cons, List.length_append, hlen, ih, hevents, hone,
            Finset.sum_add_distrib, Finset.sum_ite_eq', if_pos hmem]
          omega

end Sessions

/-- What a stream sends is within its share. -/
theorem Tracks.share_le {own : Bool} {next : Nat} {incoming outgoing : List FrameStreamEvent}
    {id : StreamID} {p : StreamPair} (h : Tracks own next incoming outgoing id p) :
    total FrameStreamEvent.encodedLen outgoing ≤ p.share := by
  rw [← h.emitted]
  have hall := h.reach.share_le
  rw [StreamPair.history, total_append] at hall
  exact Nat.le_of_add_right_le hall

/-- All that an end has to send. -/
theorem Sound.encoding_le {isServer : Bool} {a : Side} (ha : Sound isServer a) :
    (encoding a.session.outgoing).length ≤
      headerLen * (sessionEvents a.session.outgoing).length +
        ∑ id ∈ a.session.ids, ((a.session.streamsOf id).map StreamPair.share).sum := by
  have hids : ∀ id, eventsOn id a.session.outgoing ≠ [] → id ∈ a.session.ids :=
    fun id hne => YamuxSession.mem_ids.mpr (ha.tracking.outgoing id hne)
  rw [length_encoding hids]
  gcongr with id hid
  obtain ⟨p, hp⟩ := YamuxSession.mem_ids.mp hid
  refine (ha.tracking.holds hp).share_le.trans ?_
  exact List.single_le_sum (by simp) _ (List.mem_map_of_mem (YamuxSession.mem_streamsOf.mpr hp))

/-- Every frame received takes up some of what was sent. -/
theorem Sound.received_le {isServer : Bool} {a o : Side} (ha : Sound isServer a)
    (ho : Outbound o.session) (hpipe : a.given <+: o.taken) :
    a.session.transport.received.length ≤ (encoding o.session.outgoing).length := by
  have hheard := ha.reading.reader.heard ho.wellFormed (hpipe.trans ho.taken)
  have htokens : ∀ f : Frame, f.tokens.length ≤ f.encode.length := by
    intro f
    match f with
    | .stream id (.dataChunk chunk) => exact Nat.le_of_eq (List.length_map _)
    | .stream id (.data flags size) | .stream id (.windowUpdate flags delta) =>
        rw [Frame.length_encode rfl]
        exact Nat.one_le_ofNat
    | .session (.ping flags code) | .session (.goAway code) =>
        rw [Frame.length_encode rfl]
        exact Nat.one_le_ofNat
  calc a.session.transport.received.length
      ≤ (a.session.transport.received.flatMap Frame.tokens).length :=
        length_le_flatMap ha.reading.nonempty
    _ ≤ (o.session.outgoing.flatMap Frame.tokens).length := hheard.length_le
    _ ≤ (encoding o.session.outgoing).length := length_flatMap_le fun f _ => htokens f

/-- In every run of a client and a server joined by two byte pipes, without empty
writes and with fewer than `2 ^ 31 - 1` calls of `open_stream` at each end, the
frames a session sends on its own behalf are `GoAway`s, and the bytes taken from it are
at most their headers and the shares of its streams: for each stream two
headers, the bytes written and a header for each chunk of them, and a header for
every `grantLen` bytes of payload received. -/
theorem traffic_bounded {maxWriteBuffer : Role → Nat} {w : World}
    (h : (worldMachine maxWriteBuffer).Reachable w) (r : Role) :
    (∀ e ∈ sessionEvents (w r).session.outgoing, e.isGoAway = true) ∧
      (w r).taken.length ≤ headerLen * (sessionEvents (w r).session.outgoing).length +
        ∑ id ∈ (w r).session.ids, (((w r).session.streamsOf id).map StreamPair.share).sum := by
  obtain ⟨ha, -⟩ := World.sound h r
  exact ⟨World.unpinging h r, ha.outbound.taken.length_le.trans ha.encoding_le⟩

/-- The client has opened a stream, written two bytes and closed. -/
theorem traffic_bounded_exchange :
    ∃ w, (World.new fun _ => 0).run exchange = some w ∧ (w .client).taken.length = 38 ∧
      (w .client).taken.length ≤ headerLen * (sessionEvents (w .client).session.outgoing).length +
        ∑ id ∈ (w .client).session.ids,
          (((w .client).session.streamsOf id).map StreamPair.share).sum := by
  obtain ⟨w, hrun, hlen⟩ := Option.map_eq_some_iff.mp (by decide +kernel :
    ((World.new fun _ => 0).run exchange).map (fun w => (w .client).taken.length) = some 38)
  have hreach := callMachine_reachable (World.reachable_of_run (.init rfl) hrun)
  exact ⟨w, hrun, hlen, (traffic_bounded hreach .client).2⟩

end YamuxLowMem
