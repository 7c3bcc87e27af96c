/-
YamuxLowMem/WorldCredit.lean

Flow control between two sessions.

`Credit` has the law of conservation for two heads and a queue of events
between them.  Here the two heads are those of two sessions in full, and what
lies between them is spread over the queues and write buffers of the sessions,
the byte pipes, the read buffers, and the header a payload is cut off from.
None of it has to be looked into: what has been put out at one end is counted
in the history of one head, what has arrived in the inputs of the other, and
what arrives is the front of what was put out.
-/
import YamuxLowMem.Duplex

namespace YamuxLowMem

open Async

/-! ### Chunks are no larger than their header -/

theorem Blocks.size_le {es : List FrameStreamEvent} (h : Blocks es) {flags : Flags}
    {size : UInt32} (hmem : .data flags size ∈ es) : size.toNat ≤ defaultChunkCapacity := by
  induction h with
  | nil => cases hmem
  | control flags' delta _ ih =>
      rcases List.mem_cons.mp hmem with heq | hmem
      · cases heq
      · exact ih hmem
  | @payload chunk es _ hlen _ ih =>
      rcases List.mem_cons.mp hmem with heq | hmem
      · cases heq
        rw [UInt32.toNat_ofNat_of_lt' (Nat.lt_of_le_of_lt hlen (by decide))]
        exact hlen
      · rcases List.mem_cons.mp hmem with heq | hmem
        · cases heq
        · exact ih hmem

/-- No payload is due, and none has come, that is larger than `bound`. -/
structure SmallInputs (bound : Nat) (p : StreamPair) : Prop where
  due : ∀ n, p.head.recvState = some n → n ≤ bound
  chunks : ∀ c, .dataChunk c ∈ p.inputs → c.length ≤ bound

/-- The headers received bound the payload received. -/
theorem PairReachable.smallInputs {opened : Bool} {id : StreamID} {p : StreamPair}
    (h : PairReachable opened id p) (bound : Nat)
    (hsizes : ∀ flags size, .data flags size ∈ p.inputs → size.toNat ≤ bound) :
    SmallInputs bound p := by
  revert hsizes
  refine h.invariant ?_ ?_
  · rintro p rfl -
    refine ⟨?_, ?_⟩
    · intro n hn
      cases opened <;> cases hn
    · intro c hc
      cases opened <;> cases hc
  · rintro p q hp hstep hsizes
    cases hstep with
    | header flags size _ hr =>
        obtain ⟨hdue, hchunks⟩ := hp fun f n hmem => hsizes f n (List.mem_append_left _ hmem)
        refine ⟨?_, ?_⟩
        · intro n hn
          obtain rfl := Option.some.inj hn
          exact hsizes flags size (List.mem_append_right _ (List.mem_singleton.mpr rfl))
        · intro c hc
          rcases List.mem_append.mp hc with hc | hc
          · exact hchunks c hc
          · cases List.mem_singleton.mp hc
    | @chunk due bytes _ hr hle =>
        obtain ⟨hdue, hchunks⟩ := hp fun f n hmem => hsizes f n (List.mem_append_left _ hmem)
        have hbound := hdue due hr
        refine ⟨?_, ?_⟩
        · intro n hn
          show n ≤ bound
          replace hn : (if due - bytes.length = 0 then none else some (due - bytes.length)) =
            some n := hn
          split at hn
          · cases hn
          · obtain rfl := Option.some.inj hn
            omega
        · intro c hc
          rcases List.mem_append.mp hc with hc | hc
          · exact hchunks c hc
          · cases List.mem_singleton.mp hc
            omega
    | window flags delta =>
        obtain ⟨hdue, hchunks⟩ := hp fun f n hmem => hsizes f n (List.mem_append_left _ hmem)
        refine ⟨hdue, ?_⟩
        intro c hc
        rcases List.mem_append.mp hc with hc | hc
        · exact hchunks c hc
        · cases List.mem_singleton.mp hc
    | takeEnd | takeNone =>
        obtain ⟨hdue, hchunks⟩ := hp hsizes
        refine ⟨?_, hchunks⟩
        rw [YamuxStreamHead.tryCloseLocal_eq]
        exact hdue
    | _ => exact ⟨(hp hsizes).due, (hp hsizes).chunks⟩

/-! ### Credit arrives as it was sent -/

/-- What a token adds to the peer's send window. -/
def tokenDelta : WireToken → Nat
  | .head (.ok (.stream _ e)) => e.delta
  | _ => 0

theorem total_delta_eq_tokens (id : StreamID) (es : List FrameStreamEvent) :
    total FrameStreamEvent.delta es = ((streamTokens id es).map tokenDelta).sum := by
  induction es with
  | nil => rfl
  | cons e es ih =>
      rw [total_cons, streamTokens_cons, List.map_append, List.sum_append, ih]
      congr 1
      cases e with
      | dataChunk chunk =>
          -- payload bytes add nothing
          have hnone : (Frame.stream id (.dataChunk chunk)).tokens.map tokenDelta =
              chunk.map fun _ => 0 := by
            rw [Frame.tokens, List.map_map]
            rfl
          rw [hnone]
          simp [FrameStreamEvent.delta]
      | data flags size => rfl
      | windowUpdate flags delta => rfl

theorem Arrived.delta_le {id : StreamID} {es es' : List FrameStreamEvent}
    (h : Arrived id es es') :
    total FrameStreamEvent.delta es ≤ total FrameStreamEvent.delta es' := by
  obtain ⟨more, hmore⟩ := h
  rw [total_delta_eq_tokens id es', ← hmore, List.map_append, List.sum_append,
    ← total_delta_eq_tokens]
  exact Nat.le_add_right _ _

/-! ### Both ends of a stream -/

/-- Payload that `p` has put out and `q` has not received. -/
def payloadUnderWay (p q : StreamPair) : Nat :=
  total FrameStreamEvent.announced p.history - (payloadOf q.inputs).length

/-- Credit that `q` has put out and `p` has not received. -/
def creditUnderWay (p q : StreamPair) : Nat :=
  total FrameStreamEvent.delta q.history - total FrameStreamEvent.delta p.inputs

/-- What the two heads of a stream have to do with each other: `p` sends, and
`q` receives and gives credit. -/
structure Balanced (p q : StreamPair) : Prop where
  payload : (payloadOf q.inputs).length ≤ total FrameStreamEvent.announced p.history
  delta : total FrameStreamEvent.delta p.inputs ≤ total FrameStreamEvent.delta q.history
  conserved : p.head.window.send + payloadUnderWay p q + q.head.window.recv + creditUnderWay p q =
    2 * initialWindow.toNat

namespace Sound

variable {isServer : Bool} {a o : Side} {id : StreamID} {p q : StreamPair}

theorem balanced (ha : Sound isServer a) (ho : Sound (!isServer) o) (hpipe : a.given <+: o.taken)
    (hback : o.given <+: a.taken) (hp : a.session.streams.lookup id = some p)
    (hq : o.session.streams.lookup id = some q) : Balanced p q := by
  obtain ⟨hptracks, hpinputs⟩ := ha.tracking.registered id p hp
  obtain ⟨hqtracks, hqinputs⟩ := ho.tracking.registered id q hq
  -- what has come in at either end, and what had gone out at the other
  have hforth : Arrived id q.inputs p.emitted := by
    rw [hqinputs, hptracks.emitted]
    exact ho.arrived ha.outbound hback id
  have hcome : Arrived id p.inputs q.emitted := by
    rw [hpinputs, hqtracks.emitted]
    exact ha.arrived ho.outbound hpipe id
  have hblocks := hptracks.reach.outgoing.blocks
  have hpayload : (payloadOf q.inputs).length ≤ total FrameStreamEvent.announced p.history := by
    rw [hblocks.announced_eq, StreamPair.history, payloadOf_append, List.length_append]
    exact Nat.le_add_right_of_le hforth.payload.length_le
  have hdelta : total FrameStreamEvent.delta p.inputs ≤ total FrameStreamEvent.delta q.history := by
    rw [StreamPair.history, total_append]
    exact Nat.le_add_right_of_le hcome.delta_le
  refine ⟨hpayload, hdelta, ?_⟩
  have hsmall := hqtracks.reach.smallInputs defaultChunkCapacity fun flags size hmem =>
    hblocks.size_le (List.mem_append_left _ (hforth.mem hmem rfl))
  have hsend := hptracks.reach.send_accounting
  have hrecv := hqtracks.reach.recv_accounting fun c hc => by
    have hle := hsmall.chunks c hc
    have hsize : defaultChunkCapacity + defaultWindowUpdateThreshold.toNat ≤ UInt32.size := by
      decide
    omega
  have hcredit := hqtracks.reach.outgoing.delta_eq
  rw [payloadUnderWay, creditUnderWay]
  omega

end Sound

/-- In every run of a client and a server joined by two byte pipes, without empty
writes and with fewer than `2 ^ 31 - 1` calls of `open_stream` at each end, for every
stream that both have registered, and in both directions: the send window, the
payload put out and not yet received, the receive counter, and the credit put
out and not yet received add up to twice the initial window. -/
theorem world_credit_conserved {maxWriteBuffer : Role → Nat} {w : World}
    (h : (worldMachine maxWriteBuffer).Reachable w) (r : Role) {id : StreamID} {p q : StreamPair}
    (hp : (w r).session.streams.lookup id = some p)
    (hq : (w r.peer).session.streams.lookup id = some q) :
    Balanced p q ∧ Balanced q p := by
  obtain ⟨ha, hpipe⟩ := World.sound h r
  obtain ⟨ho, hback⟩ := World.sound h r.peer
  rw [Role.isServer_peer] at ho
  rw [Role.peer_peer] at hback
  refine ⟨ha.balanced ho hpipe hback hp hq, ?_⟩
  have ha' : Sound (!!r.isServer) (w r) := by
    rw [Bool.not_not]
    exact ha
  exact ho.balanced ha' hback hpipe hq hp

/-- The client opens a stream and writes to it; the server has read the `SYN`,
and part of the data header. -/
def halfHeard : List (Role × Move) :=
  [(.client, .openStream),
    (.client, .handle (.registered ⟨1⟩) (.write [7, 8])),
    (.client, .poll (List.replicate 4 (.ready (.ok 100))) [] [] [⟨1⟩]),
    (.server, .poll [] [.ready (.ok [0, 1, 0, 1, 0, 0, 0, 1, 0, 4, 0, 0, 0, 0, 0])] [] [])]

theorem world_credit_conserved_halfHeard :
    ∃ w p q, (World.new fun _ => 0).run halfHeard = some w ∧
      (w .client).session.streams.lookup ⟨1⟩ = some p ∧
      (w .server).session.streams.lookup ⟨1⟩ = some q ∧ Balanced p q ∧ Balanced q p := by
  obtain ⟨w, hrun, hw⟩ := Option.map_eq_some_iff.mp (by decide +kernel :
    ((World.new fun _ => 0).run halfHeard).map (fun w =>
      (((w .client).session.streams.lookup ⟨1⟩).isSome,
        ((w .server).session.streams.lookup ⟨1⟩).isSome)) = some (true, true))
  obtain ⟨hclient, hserver⟩ := Prod.mk.inj hw
  obtain ⟨p, hp⟩ := Option.isSome_iff_exists.mp hclient
  obtain ⟨q, hq⟩ := Option.isSome_iff_exists.mp hserver
  have hreach := callMachine_reachable (World.reachable_of_run (.init rfl) hrun)
  exact ⟨w, p, q, hrun, hp, hq, world_credit_conserved hreach .client hp hq⟩

end YamuxLowMem
