/-
YamuxLowMem/Credit.lean

Flow control between the two heads of one stream.

`Link` is a stream as both sides see it: the opened pair, the accepted pair,
and a FIFO queue of events in each direction.  A chunk may arrive in parts, as
the frame reader hands it over.  What one head has put out and the other has
not yet taken is `wire ++ outs`; `Joined` ties it to the histories of both
ends, and says that it will be accepted.  The law of conservation is then the
accounting of the two heads added up.
-/
import YamuxLowMem.PairInv

namespace YamuxLowMem

open Async

/-! ### Both sides of a stream -/

/-- A stream as both sides see it, with the events in flight: from `a` to `b`
and from `b` to `a`. -/
structure Link where
  a : StreamPair
  b : StreamPair
  ab : List FrameStreamEvent
  ba : List FrameStreamEvent

/-- What can happen at one side. -/
inductive SideOp where
  | poll
  | deliver
  /-- the first `n` bytes of the chunk in front arrive -/
  | deliverPart (n : Nat)
  | handle (op : HandleOp)
  deriving DecidableEq, Repr

namespace Link

/-- `a` has opened the stream and `b` accepts it. -/
def start (id : StreamID) : Link :=
  { a := StreamPair.openStream id, b := StreamPair.acceptStream id, ab := [], ba := [] }

/-- The same link seen from the other side. -/
def swap (l : Link) : Link := { a := l.b, b := l.a, ab := l.ba, ba := l.ab }

/-- Something happens at side `a`. -/
def stepA (l : Link) : SideOp → Link
  | .poll =>
      match l.a.pollNext with
      | (.ready (some e), p) => { l with a := p, ab := l.ab ++ [e] }
      | (_, p) => { l with a := p }
  | .deliver =>
      match l.ba with
      | e :: rest => { l with a := (l.a.onInput e).2, ba := rest }
      | [] => l
  | .deliverPart n =>
      match l.ba with
      | .dataChunk c :: rest =>
          if 0 < n ∧ n < c.length then
            { l with
              a := (l.a.onInput (.dataChunk (c.take n))).2
              ba := .dataChunk (c.drop n) :: rest }
          else l
      | _ => l
  | .handle op => { l with a := l.a.handleOp op }

/-- Something happens at side `a` (`false`) or `b` (`true`). -/
def step (l : Link) : Bool × SideOp → Link
  | (false, op) => l.stepA op
  | (true, op) => (l.swap.stepA op).swap

def run (l : Link) (ops : List (Bool × SideOp)) : Link := ops.foldl step l

end Link

/-! ### What is under way will be accepted -/

/-- A head with this `recv_state` can take in the events `es`. -/
def Due : Option Nat → List FrameStreamEvent → Prop
  | none, es => Blocks es
  | some n, es => ∃ c rest, es = .dataChunk c :: rest ∧ c ≠ [] ∧ c.length = n ∧
      c.length ≤ defaultChunkCapacity ∧ Blocks rest

theorem Due.append {r : Option Nat} {es new : List FrameStreamEvent} (h : Due r es)
    (hnew : Blocks new) : Due r (es ++ new) := by
  cases r with
  | none => exact Blocks.append h hnew
  | some n =>
      obtain ⟨c, rest, rfl, hne, hlen, hle, hrest⟩ := h
      exact ⟨c, rest ++ new, rfl, hne, hlen, hle, hrest.append hnew⟩

/-- One direction of a link: what `p` has put out is what `q` has taken in
followed by what is on its way, and `q` will take that in. -/
structure Joined (p q : StreamPair) (way : List FrameStreamEvent) : Prop where
  payload : payloadOf p.history = payloadOf q.inputs ++ payloadOf way
  delta : total FrameStreamEvent.delta p.history =
    total FrameStreamEvent.delta q.inputs + total FrameStreamEvent.delta way
  due : Due q.head.recvState way
  chunk_le : ∀ c, .dataChunk c ∈ q.inputs → c.length ≤ defaultChunkCapacity

namespace Joined

variable {p p' q q' : StreamPair} {way : List FrameStreamEvent}

/-- Before anything has been yielded or received. -/
theorem fresh (hp : p.emitted = []) (hq : q.inputs = []) (hr : q.head.recvState = none)
    (hb : Blocks p.head.outs) : Joined p q ([] ++ p.head.outs) := by
  constructor
  · rw [StreamPair.history, hp, hq]
    rfl
  · rw [StreamPair.history, hp, hq, total_nil, Nat.zero_add]
  · rw [hr]
    exact hb
  · intro c hc
    rw [hq] at hc
    cases hc

/-- The sending side puts out more. -/
theorem putOut (h : Joined p q way) {new : List FrameStreamEvent} (hnew : Blocks new)
    (hhist : p'.history = p.history ++ new) : Joined p' q (way ++ new) := by
  constructor
  · rw [hhist, payloadOf_append, payloadOf_append, h.payload, List.append_assoc]
  · rw [hhist, total_append, total_append, h.delta, Nat.add_assoc]
  · exact h.due.append hnew
  · exact h.chunk_le

/-- The receiving side does something else than receive. -/
theorem receiver (h : Joined p q way) (hin : q'.inputs = q.inputs)
    (hrecv : q'.head.recvState = q.head.recvState) : Joined p q' way := by
  constructor
  · rw [hin]
    exact h.payload
  · rw [hin]
    exact h.delta
  · rw [hrecv]
    exact h.due
  · rw [hin]
    exact h.chunk_le

/-- Part of the chunk in front arrives, or all of it. -/
theorem chunk {c₁ c₂ : Bytes} (h : Joined p q (.dataChunk (c₁ ++ c₂) :: way)) (hne : c₁ ≠ []) :
    ∃ q', q.onInput (.dataChunk c₁) = (.ok (), q') ∧
      Joined p q' (if c₂ = [] then way else .dataChunk c₂ :: way) := by
  cases hr : q.head.recvState with
  | none =>
      have hdue := h.due
      rw [hr] at hdue
      cases hdue
  | some n =>
      have hdue := h.due
      rw [hr] at hdue
      obtain ⟨c, rest, hc, -, hlen, hle, hrest⟩ := hdue
      obtain ⟨rfl, rfl⟩ : c₁ ++ c₂ = c ∧ way = rest := by simpa using hc
      rw [List.length_append] at hlen hle
      -- what is left on the way
      have hpay : payloadOf (if c₂ = [] then way else .dataChunk c₂ :: way) =
          c₂ ++ payloadOf way := by
        split
        · rename_i hz
          rw [hz, List.nil_append]
        · exact payloadOf_cons _ _
      have hdelta : total FrameStreamEvent.delta (if c₂ = [] then way else .dataChunk c₂ :: way) =
          total FrameStreamEvent.delta way := by
        split
        · rfl
        · simp [FrameStreamEvent.delta]
      refine ⟨_, StreamPair.onInput_chunk hr (by omega), ?_, ?_, ?_, ?_⟩
      · rw [hpay, h.payload]
        simp [FrameStreamEvent.payload]
      · rw [hdelta, h.delta]
        simp [FrameStreamEvent.delta]
      · show Due (if n - c₁.length = 0 then none else some (n - c₁.length)) _
        by_cases hz : c₂ = []
        · have hlen₂ : c₂.length = 0 := by rw [hz]; rfl
          rw [if_pos hz, if_pos (by omega)]
          exact hrest
        · have hlen₂ : 0 < c₂.length := List.length_pos_iff.mpr hz
          rw [if_neg hz, if_neg (by omega)]
          exact ⟨c₂, way, rfl, hz, by omega, by omega, hrest⟩
      · intro c' hc'
        rcases List.mem_append.mp hc' with hc' | hc'
        · exact h.chunk_le c' hc'
        · obtain rfl : c' = c₁ := by simpa using hc'
          omega

/-- The event in front arrives, and is accepted. -/
theorem deliver {e : FrameStreamEvent} (h : Joined p q (e :: way)) :
    ∃ q', q.onInput e = (.ok (), q') ∧ Joined p q' way := by
  cases e with
  | dataChunk c =>
      -- a chunk on the way is the whole payload, and a payload is not empty
      have hne : c ≠ [] := by
        have hdue := h.due
        cases hr : q.head.recvState with
        | none =>
            rw [hr] at hdue
            cases hdue
        | some n =>
            rw [hr] at hdue
            obtain ⟨c', rest, hc, hne, -⟩ := hdue
            obtain ⟨rfl, -⟩ : c = c' ∧ way = rest := by simpa using hc
            exact hne
      have hwhole : Joined p q (.dataChunk (c ++ []) :: way) := by rwa [List.append_nil]
      obtain ⟨q', hin, hjoined⟩ := hwhole.chunk hne
      exact ⟨q', hin, by rwa [if_pos rfl] at hjoined⟩
  | data flags size =>
      cases hr : q.head.recvState with
      | some n =>
          have hdue := h.due
          rw [hr] at hdue
          -- in the middle of a payload only its chunk can come
          obtain ⟨c, rest, hc, -⟩ := hdue
          cases hc
      | none =>
          have hdue := h.due
          rw [hr] at hdue
          cases hdue with
          | @payload c es hne hle hes =>
              have hsize : (UInt32.ofNat c.length).toNat = c.length :=
                UInt32.toNat_ofNat_of_lt' (Nat.lt_of_le_of_lt hle (by decide))
              refine ⟨_, StreamPair.onInput_header hr _ _, ?_, ?_, ?_, ?_⟩
              · simpa [FrameStreamEvent.payload] using h.payload
              · simpa [FrameStreamEvent.delta] using h.delta
              · show Due (some (UInt32.ofNat c.length).toNat) _
                rw [hsize]
                exact ⟨c, es, rfl, hne, rfl, hle, hes⟩
              · intro c' hc'
                exact h.chunk_le c' (by simpa using hc')
  | windowUpdate flags delta =>
      cases hr : q.head.recvState with
      | some n =>
          have hdue := h.due
          rw [hr] at hdue
          obtain ⟨c, rest, hc, -⟩ := hdue
          cases hc
      | none =>
          have hdue := h.due
          rw [hr] at hdue
          cases hdue with
          | control _ _ hes =>
              refine ⟨_, StreamPair.onInput_window flags delta, ?_, ?_, ?_, ?_⟩
              · simpa [FrameStreamEvent.payload] using h.payload
              · have hdelta := h.delta
                simp only [total_cons, total_append, total_nil] at hdelta ⊢
                omega
              · show Due q.head.recvState _
                rw [hr]
                exact hes
              · intro c' hc'
                exact h.chunk_le c' (by simpa using hc')

end Joined

/-! ### The invariant of a link -/

/-- Both ends are live streams, and both directions are joined. -/
structure LinkInv (openedA openedB : Bool) (id : StreamID) (l : Link) : Prop where
  reachA : PairReachable openedA id l.a
  reachB : PairReachable openedB id l.b
  aliveA : l.a.headAlive
  aliveB : l.b.headAlive
  ab : Joined l.a l.b (l.ab ++ l.a.head.outs)
  ba : Joined l.b l.a (l.ba ++ l.b.head.outs)

namespace LinkInv

variable {openedA openedB : Bool} {id : StreamID} {l : Link}

theorem swap (h : LinkInv openedA openedB id l) : LinkInv openedB openedA id l.swap :=
  ⟨h.reachB, h.reachA, h.aliveB, h.aliveA, h.ba, h.ab⟩

theorem start (id : StreamID) : LinkInv true false id (Link.start id) := by
  refine ⟨.init rfl, .init rfl, rfl, rfl, ?_, ?_⟩
  · exact Joined.fresh rfl rfl rfl (.control _ _ .nil)
  · exact Joined.fresh rfl rfl rfl (.control _ _ .nil)

/-- Side `a` receives `e`, of which `rest` is left on the way. -/
theorem receive (h : LinkInv openedA openedB id l) {e : FrameStreamEvent}
    {rest : List FrameStreamEvent}
    (hin : ∃ p, l.a.onInput e = (.ok (), p) ∧ Joined l.b p (rest ++ l.b.head.outs)) :
    LinkInv openedA openedB id { l with a := (l.a.onInput e).2, ba := rest } := by
  obtain ⟨p, hp, hjoined⟩ := hin
  have hstep := (StreamPair.onInput_ok h.aliveA hp).1
  obtain ⟨new, hnew, hblocks, -⟩ := h.reachA.grows (.single hstep)
  have hemitted : p.emitted = l.a.emitted := by
    have := l.a.onInput_emitted e
    rwa [hp] at this
  have houts : p.head.outs = l.a.head.outs ++ new := by
    simp only [StreamPair.history, hemitted, List.append_assoc] at hnew
    exact List.append_cancel_left hnew
  have halive : p.headAlive = l.a.headAlive := by
    have := StreamPair.onInput_headAlive (p := l.a) e
    rwa [hp] at this
  rw [hp]
  refine ⟨h.reachA.steps (.single hstep), h.reachB, halive.trans h.aliveA, h.aliveB, ?_, hjoined⟩
  show Joined p l.b (l.ab ++ p.head.outs)
  rw [houts, ← List.append_assoc]
  exact h.ab.putOut hblocks hnew

/-- Side `a` is polled. -/
theorem poll (h : LinkInv openedA openedB id l) : LinkInv openedA openedB id (l.stepA .poll) := by
  have hsteps := StreamPair.pollNext_steps h.aliveA
  obtain ⟨new, hnew, hblocks, -⟩ := h.reachA.grows hsteps
  have hreach := h.reachA.steps hsteps
  have halive : l.a.pollNext.2.headAlive := by
    rw [StreamPair.pollNext_headAlive]
    exact h.aliveA
  have hab := h.ab.putOut hblocks hnew
  have hba := h.ba.receiver (StreamPair.pollNext_inputs (p := l.a)) StreamPair.pollNext_recvState
  have hemitted := StreamPair.pollNext_emitted (p := l.a)
  simp only [Link.stepA]
  cases hpoll : l.a.pollNext with
  | mk result p =>
      rw [hpoll] at hnew hreach halive hab hba hemitted
      replace hemitted : p.emitted = _ := hemitted
      simp only [StreamPair.history, hemitted, List.append_assoc] at hnew
      have hway := List.append_cancel_left hnew
      rw [List.append_assoc, ← hway, ← List.append_assoc] at hab
      cases result with
      | pending => exact ⟨hreach, h.reachB, halive, h.aliveB, by simpa using hab, hba⟩
      | ready event =>
          cases event with
          | none => exact ⟨hreach, h.reachB, halive, h.aliveB, by simpa using hab, hba⟩
          | some e => exact ⟨hreach, h.reachB, halive, h.aliveB, hab, hba⟩

theorem stepA (h : LinkInv openedA openedB id l) (op : SideOp) :
    LinkInv openedA openedB id (l.stepA op) := by
  cases op with
  | poll => exact h.poll
  | deliver =>
      simp only [Link.stepA]
      cases hba : l.ba with
      | nil => exact h
      | cons e rest =>
          apply h.receive
          have hjoined := h.ba
          rw [hba] at hjoined
          exact hjoined.deliver
  | deliverPart n =>
      simp only [Link.stepA]
      split
      · rename_i c rest hba
        split
        · rename_i hn
          apply h.receive
          have hjoined := h.ba
          rw [hba, ← List.take_append_drop n c] at hjoined
          -- neither part of the chunk is empty
          have hne : c.take n ≠ [] := by
            intro hnil
            have := congrArg List.length hnil
            rw [List.length_take, List.length_nil] at this
            omega
          have hrest : c.drop n ≠ [] := by
            intro hnil
            have := congrArg List.length hnil
            rw [List.length_drop, List.length_nil] at this
            omega
          obtain ⟨p, hp, hj⟩ := hjoined.chunk hne
          rw [if_neg hrest] at hj
          exact ⟨p, hp, hj⟩
        · exact h
      · exact h
  | handle op =>
      obtain ⟨hhead, hemitted, hinputs⟩ := l.a.handleOp_frame op
      have hhist : (l.a.handleOp op).history = l.a.history ++ [] := by
        rw [StreamPair.history, hhead, hemitted, List.append_nil]
        rfl
      refine ⟨h.reachA.steps (StreamPair.handleOp_steps op), h.reachB, ?_, h.aliveB, ?_, ?_⟩
      · show (l.a.handleOp op).headAlive
        rw [StreamPair.handleOp_headAlive]
        exact h.aliveA
      · show Joined (l.a.handleOp op) l.b (l.ab ++ (l.a.handleOp op).head.outs)
        rw [hhead, ← List.append_nil (l.ab ++ _)]
        exact h.ab.putOut .nil hhist
      · exact h.ba.receiver hinputs (congrArg YamuxStreamHead.recvState hhead)

theorem run (h : LinkInv openedA openedB id l) (ops : List (Bool × SideOp)) :
    LinkInv openedA openedB id (l.run ops) := by
  induction ops generalizing l openedA openedB with
  | nil => exact h
  | cons op ops ih =>
      obtain ⟨side, op⟩ := op
      cases side with
      | false => exact ih (h.stepA op)
      | true => exact ih (h.swap.stepA op).swap

/-- The law of conservation, from `a` to `b`. -/
theorem conservation (h : LinkInv openedA openedB id l) :
    l.a.head.window.send + (payloadOf (l.ab ++ l.a.head.outs)).length + l.b.head.window.recv +
      total FrameStreamEvent.delta (l.ba ++ l.b.head.outs) = 2 * initialWindow.toNat := by
  have hsend := h.reachA.send_accounting
  have hrecv := h.reachB.recv_accounting fun c hc => by
    have hle := h.ab.chunk_le c hc
    have hsize : defaultChunkCapacity + defaultWindowUpdateThreshold.toNat ≤ UInt32.size := by
      decide
    omega
  have hannounced := h.reachA.outgoing.blocks.announced_eq
  have hpayload := congrArg List.length h.ab.payload
  rw [List.length_append] at hpayload
  have hcredit := h.reachB.outgoing.delta_eq
  have hdelta := h.ba.delta
  omega

end LinkInv

/-! ### Conservation, and that nobody waits for ever -/

/-- In every interleaving of writes, polls and deliveries, in both directions:
the send window, the payload put out and not yet received, the receive counter
and the credit not yet received add up to twice the initial window.  So when
nothing is queued or in flight, there is room for a full chunk. -/
theorem credit_conserved (id : StreamID) (ops : List (Bool × SideOp)) :
    let l := (Link.start id).run ops
    l.a.head.window.send + (payloadOf (l.ab ++ l.a.head.outs)).length + l.b.head.window.recv +
        total FrameStreamEvent.delta (l.ba ++ l.b.head.outs) = 2 * initialWindow.toNat ∧
      l.b.head.window.send + (payloadOf (l.ba ++ l.b.head.outs)).length + l.a.head.window.recv +
        total FrameStreamEvent.delta (l.ab ++ l.a.head.outs) = 2 * initialWindow.toNat ∧
      (l.ab = [] ∧ l.ba = [] ∧ l.a.head.outs = [] ∧ l.b.head.outs = [] →
        defaultChunkCapacity ≤ l.a.head.window.send ∧
          defaultChunkCapacity ≤ l.b.head.window.send) := by
  intro l
  have hinv : LinkInv true false id l := (LinkInv.start id).run ops
  have hab := hinv.conservation
  have hba := hinv.swap.conservation
  refine ⟨hab, hba, ?_⟩
  rintro ⟨hab₀, hba₀, houtsA, houtsB⟩
  have hrecvA := hinv.reachA.recv_lt
  have hrecvB := hinv.reachB.recv_lt
  have hconst : defaultChunkCapacity + defaultWindowUpdateThreshold.toNat ≤
      2 * initialWindow.toNat := by decide
  simp only [Link.swap, hab₀, hba₀, houtsA, houtsB, List.append_nil, payloadOf_nil, List.length_nil,
    total_nil] at hab hba
  omega

end YamuxLowMem
