/-
YamuxLowMem/PairInv.lean

What holds of a stream in every interleaving of its methods.

The events a head has put out begin with `SYN` or `ACK`, and go on in blocks:
window updates, `FIN`, and data headers each with its chunk.  The send window
plus what was announced is the credit received; the receive counter plus the
credit given back is the payload received.
-/
import YamuxLowMem.Pair

namespace YamuxLowMem

open Async Relation

abbrev PairReachable (opened : Bool) (id : StreamID) : StreamPair → Prop :=
  (pairMachine opened id).Reachable

/-! ### Closed forms -/

/-- The event that closes the local half. -/
def finEvent : FrameStreamEvent := .windowUpdate Flags.onlyFin 0

/-- The event that gives back credit for `n` bytes. -/
def creditEvent (n : Nat) : FrameStreamEvent := .windowUpdate Flags.empty (UInt32.ofNat n)

/-- The event a head starts with. -/
def firstEvent (opened : Bool) : FrameStreamEvent :=
  .windowUpdate (if opened then Flags.onlySyn else Flags.onlyAck) initialWindow

section EventMeasures

open FrameStreamEvent

variable (n : Nat)

@[simp] theorem announced_finEvent : announced finEvent = 0 := rfl

@[simp] theorem credit_finEvent : credit finEvent = 0 := rfl

@[simp] theorem payload_finEvent : payload finEvent = [] := rfl

@[simp] theorem carries_finEvent : carries Flags.fin finEvent = true := rfl

@[simp] theorem carries_creditEvent : carries Flags.fin (creditEvent n) = false := rfl

@[simp] theorem announced_creditEvent : announced (creditEvent n) = 0 := rfl

@[simp] theorem credit_creditEvent : credit (creditEvent n) = (UInt32.ofNat n).toNat := rfl

@[simp] theorem payload_creditEvent : payload (creditEvent n) = [] := rfl

end EventMeasures

namespace YamuxStreamHead

theorem tryCloseLocal_eq (h : YamuxStreamHead) :
    h.tryCloseLocal = { h with
      state := { h.state with localOpen := false }
      outs := h.outs ++ if h.state.localOpen then [finEvent] else [] } := by
  rcases h with ⟨id, ⟨localOpen, remoteOpen⟩, window, outs, recvState⟩
  cases localOpen <;> simp [tryCloseLocal, finEvent]

/-- Do `n` more bytes make a window update due? -/
def dueCredit (h : YamuxStreamHead) (n : Nat) : Bool :=
  defaultWindowUpdateThreshold.toNat ≤ h.window.recv + n + defaultChunkCapacity

theorem markReceivedBytes_eq (h : YamuxStreamHead) (n : Nat) :
    h.markReceivedBytes n = { h with
      window := { h.window with recv := if h.dueCredit n then 0 else h.window.recv + n }
      outs := h.outs ++ if h.dueCredit n then [creditEvent (h.window.recv + n)] else [] } := by
  by_cases hd : defaultWindowUpdateThreshold.toNat ≤ h.window.recv + n + defaultChunkCapacity
  · simp [markReceivedBytes, dueCredit, hd, creditEvent]
  · simp [markReceivedBytes, dueCredit, hd]

end YamuxStreamHead

namespace StreamPair

/-- The events that accepting an event puts out. -/
def answers (p : StreamPair) : FrameStreamEvent → List FrameStreamEvent
  | .dataChunk c =>
      if p.head.dueCredit c.length then [creditEvent (p.head.window.recv + c.length)] else []
  | .data flags _ | .windowUpdate flags _ =>
      if flags.rst && p.head.state.localOpen then [finEvent] else []

/-- What accepting an event does to the local half and to what is put out. -/
theorem onInput_local {p q : StreamPair} {e : FrameStreamEvent} (h : p.onInput e = (.ok (), q)) :
    q.head.state.localOpen = (p.head.state.localOpen && !e.carries Flags.rst) ∧
      q.history = p.history ++ p.answers e := by
  cases e with
  | data flags size =>
      obtain ⟨-, rfl⟩ := onInput_header_ok h
      exact ⟨rfl, (List.append_assoc _ _ _).symm⟩
  | windowUpdate flags delta =>
      obtain rfl := onInput_window_ok h
      exact ⟨rfl, (List.append_assoc _ _ _).symm⟩
  | dataChunk bytes =>
      obtain ⟨due, -, -, rfl⟩ := onInput_chunk_ok h
      simp only [history, YamuxStreamHead.markReceivedBytes_eq]
      refine ⟨?_, (List.append_assoc _ _ _).symm⟩
      simp [FrameStreamEvent.carries, FrameStreamEvent.flags]

end StreamPair

/-! ### Identifiers and the channel from the handle -/

namespace PairReachable

variable {opened : Bool} {id : StreamID} {p : StreamPair}

theorem ids (h : PairReachable opened id p) : p.head.id = id ∧ p.handle.id = id := by
  refine h.invariant ?_ ?_
  · rintro p rfl
    cases opened <;> exact ⟨rfl, rfl⟩
  · rintro p q ⟨hid, hhandle⟩ hstep
    cases hstep <;>
      simp [StreamPair.dropHandle, StreamPair.dropHead, YamuxStreamHead.tryCloseLocal_eq,
        YamuxStreamHead.markReceivedBytes_eq, YamuxStreamHead.flagged, YamuxStreamHead.sendChunk,
        YamuxStream.readChunk, hid, hhandle]

/-- The channel from the handle holds at most two chunks of at most the
default capacity. -/
theorem queue_bound (h : PairReachable opened id p) :
    p.up.queue.length ≤ handleBuffer + 1 ∧ ∀ c ∈ p.up.queue, c.length ≤ defaultChunkCapacity := by
  refine h.invariant ?_ ?_
  · rintro p rfl
    cases opened <;> exact ⟨Nat.zero_le _, fun c hc => absurd hc List.not_mem_nil⟩
  · rintro p q ⟨hlen, hchunk⟩ hstep
    cases hstep with
    | take _ hq | takeEnd _ hq =>
        rw [hq] at hlen hchunk
        exact ⟨Nat.le_of_succ_le hlen, fun c hc => hchunk c (List.mem_cons_of_mem _ hc)⟩
    | write buf _ _ _ hroom =>
        refine ⟨by simpa using hroom, ?_⟩
        intro c hc
        rcases List.mem_append.mp hc with hc | hc
        · exact hchunk c hc
        · rw [List.mem_singleton.mp hc, List.length_take]
          omega
    | dropHead => exact ⟨Nat.zero_le _, by simp [StreamPair.dropHead]⟩
    | _ => exact ⟨hlen, hchunk⟩

end PairReachable

/-! ### What a move puts out -/

/-- The events one move from `p` to `q` can put out. -/
inductive PutOut (p q : StreamPair) : List FrameStreamEvent → Prop where
  | none : PutOut p q []
  | fin : p.head.state.localOpen = true → q.head.state.localOpen = false → PutOut p q [finEvent]
  | block {chunk : Bytes} {rest : List Bytes} : p.up.queue = chunk :: rest → chunk ≠ [] →
      PutOut p q [.data Flags.empty (UInt32.ofNat chunk.length), .dataChunk chunk]
  | credit (n : Nat) : PutOut p q [creditEvent n]

theorem PairStep.putOut {p q : StreamPair} (h : PairStep p q) :
    ∃ new, q.history = p.history ++ new ∧ PutOut p q new := by
  have fin_or_none : ∀ {b : Bool}, (b = true → p.head.state.localOpen = true) →
      (b = true → q.head.state.localOpen = false) →
      PutOut p q (if b then [finEvent] else []) := by
    intro b hp hq
    cases b with
    | false => exact .none
    | true => exact .fin (hp rfl) (hq rfl)
  cases h with
  | yield hp ho => exact ⟨[], by simp [StreamPair.history, ho], .none⟩
  | take hp hq hne =>
      refine ⟨_, ?_, .block hq hne⟩
      simp [StreamPair.history, YamuxStreamHead.sendChunk]
  | takeEnd | takeNone =>
      refine ⟨_, ?_, fin_or_none (b := p.head.state.localOpen) id fun _ => ?_⟩
      · simp [StreamPair.history, YamuxStreamHead.tryCloseLocal_eq]
      · simp [YamuxStreamHead.tryCloseLocal_eq]
  | header flags size | window flags delta =>
      refine ⟨_, ?_, fin_or_none (b := flags.rst && p.head.state.localOpen) ?_ ?_⟩
      · simp [StreamPair.history, YamuxStreamHead.flagged, finEvent]
      · intro hb
        exact (Bool.and_eq_true _ _ ▸ hb).2
      · intro hb
        simp [YamuxStreamHead.flagged, (Bool.and_eq_true _ _ ▸ hb).1]
  | chunk bytes =>
      by_cases hd : p.head.dueCredit bytes.length = true
      · refine ⟨_, ?_, .credit (p.head.window.recv + bytes.length)⟩
        simp [StreamPair.history, YamuxStreamHead.markReceivedBytes_eq, hd]
      · refine ⟨_, ?_, .none⟩
        simp [StreamPair.history, YamuxStreamHead.markReceivedBytes_eq, hd]
  | _ => exact ⟨[], by simp [StreamPair.history, StreamPair.dropHandle, StreamPair.dropHead], .none⟩

/-- Histories only grow. -/
theorem PairStep.inputs_prefix {p q : StreamPair} (h : PairStep p q) : p.inputs <+: q.inputs := by
  cases h with
  | header | chunk | window => exact List.prefix_append _ _
  | _ => exact List.prefix_rfl

/-- Moves that end with the same inputs take in nothing on the way. -/
theorem quiet_steps {p q : StreamPair} (hsteps : ReflTransGen PairStep p q)
    (hin : q.inputs = p.inputs) :
    ReflTransGen (fun a b => PairStep a b ∧ b.inputs = a.inputs) p q := by
  have hfront : ∀ {m : StreamPair}, ReflTransGen PairStep p m → p.inputs <+: m.inputs := by
    intro m hm
    induction hm with
    | refl => exact List.prefix_rfl
    | tail _ hstep ih => exact ih.trans hstep.inputs_prefix
  induction hsteps with
  | refl => exact .refl
  | @tail m q hm hstep ih =>
      have hle : m.inputs.length ≤ p.inputs.length := by
        rw [← hin]
        exact hstep.inputs_prefix.length_le
      have hmid : m.inputs = p.inputs := ((hfront hm).eq_of_length_le hle).symm
      exact (ih hmid).tail ⟨hstep, hin.trans hmid.symm⟩

theorem PairStep.upLog_prefix {p q : StreamPair} (h : PairStep p q) : p.up.log <+: q.up.log := by
  cases h with
  | write => exact List.prefix_append _ _
  | _ => exact List.prefix_rfl

/-- What a head puts out after its first event: credit, `FIN`, and payload
without flags. -/
def Later : FrameStreamEvent → Prop
  | .windowUpdate flags delta => flags = Flags.empty ∨ flags = Flags.onlyFin ∧ delta = 0
  | .data flags _ => flags = Flags.empty
  | .dataChunk _ => True

/-- The shape of everything a head puts out. -/
def Outgoing (opened : Bool) (es : List FrameStreamEvent) : Prop :=
  ∃ rest, es = firstEvent opened :: rest ∧ Blocks rest ∧ ∀ e ∈ rest, Later e

theorem Later.delta_eq {e : FrameStreamEvent} (h : Later e) : e.delta = e.credit := by
  cases e with
  | windowUpdate flags delta =>
      rcases h with rfl | ⟨rfl, rfl⟩ <;>
        simp [FrameStreamEvent.delta, FrameStreamEvent.credit]
  | data flags size | dataChunk chunk => rfl

namespace Outgoing

variable {opened : Bool} {es : List FrameStreamEvent}

theorem blocks (h : Outgoing opened es) : Blocks es := by
  obtain ⟨rest, rfl, hblocks, -⟩ := h
  exact .control _ _ hblocks

/-- Besides the credit for received payload, the first event alone carries
some. -/
theorem delta_eq (h : Outgoing opened es) :
    total FrameStreamEvent.delta es =
      initialWindow.toNat + total FrameStreamEvent.credit es := by
  obtain ⟨rest, rfl, -, hlater⟩ := h
  have hfirst : (firstEvent opened).credit = 0 := by cases opened <;> rfl
  have hrest : total FrameStreamEvent.delta rest = total FrameStreamEvent.credit rest :=
    congrArg List.sum (List.map_congr_left fun e he => (hlater e he).delta_eq)
  rw [total_cons, total_cons, hfirst, hrest, Nat.zero_add]
  rfl

end Outgoing

theorem PutOut.blocks {p q : StreamPair} {new : List FrameStreamEvent} (h : PutOut p q new)
    (hchunk : ∀ c ∈ p.up.queue, c.length ≤ defaultChunkCapacity) :
    Blocks new ∧ ∀ e ∈ new, Later e := by
  cases h with
  | none => exact ⟨.nil, by simp⟩
  | fin => exact ⟨.control _ _ .nil, by simp [finEvent, Later]⟩
  | block hq hne =>
      refine ⟨.payload hne (hchunk _ (by simp [hq])) .nil, ?_⟩
      simp [Later]
  | credit n => exact ⟨.control _ _ .nil, by simp [creditEvent, Later]⟩

namespace PairReachable

variable {opened : Bool} {id : StreamID} {p : StreamPair}

theorem outgoing (h : PairReachable opened id p) : Outgoing opened p.history := by
  refine h.invariant_with (fun _ => queue_bound) ?_ ?_
  · rintro p rfl
    refine ⟨[], ?_, .nil, by simp⟩
    cases opened <;> rfl
  · rintro p q ⟨-, hchunk⟩ ⟨rest, hrest, hblocks, hlater⟩ hstep
    obtain ⟨new, hnew, hput⟩ := hstep.putOut
    obtain ⟨hb, hl⟩ := hput.blocks hchunk
    refine ⟨rest ++ new, ?_, hblocks.append hb, ?_⟩
    · rw [hnew, hrest, List.cons_append]
    · intro e he
      rcases List.mem_append.mp he with he | he
      · exact hlater e he
      · exact hl e he

/-- In any number of moves the history grows by blocks. -/
theorem grows {q : StreamPair} (h : PairReachable opened id p)
    (hsteps : (pairMachine opened id).Steps p q) :
    ∃ new, q.history = p.history ++ new ∧ Blocks new ∧ ∀ e ∈ new, Later e := by
  induction hsteps with
  | refl => exact ⟨[], (List.append_nil _).symm, .nil, by simp⟩
  | @tail q r hpq hstep ih =>
      obtain ⟨new, hnew, hblocks, hlater⟩ := ih
      obtain ⟨new', hnew', hput⟩ := PairStep.putOut hstep
      obtain ⟨hblocks', hlater'⟩ := hput.blocks (queue_bound (h.steps hpq)).2
      refine ⟨new ++ new', ?_, hblocks.append hblocks', ?_⟩
      · rw [hnew', hnew, List.append_assoc]
      · intro e he
        rcases List.mem_append.mp he with he | he
        · exact hlater e he
        · exact hlater' e he

/-! ### Accounting -/

/-- The send window and what was announced make up the credit received. -/
theorem send_accounting (h : PairReachable opened id p) :
    p.head.window.send + total FrameStreamEvent.announced p.history =
      initialWindow.toNat + total FrameStreamEvent.delta p.inputs := by
  refine h.invariant_with (fun _ => queue_bound) ?_ ?_
  · rintro p rfl
    cases opened <;> rfl
  · rintro p q ⟨-, hchunk⟩ hp hstep
    simp only [StreamPair.history, total_append] at hp ⊢
    cases hstep with
    | yield _ ho =>
        rw [ho, total_cons] at hp
        simp only [total_append, total_cons, total_nil]
        omega
    | @take chunk rest _ hq hne hroom =>
        have hle : chunk.length ≤ defaultChunkCapacity := hchunk chunk (by simp [hq])
        -- the size of a chunk fits into its header
        have hsize : (UInt32.ofNat chunk.length).toNat = chunk.length :=
          UInt32.toNat_ofNat_of_lt' (Nat.lt_of_le_of_lt hle (by decide))
        simp only [YamuxStreamHead.sendChunk, total_append, total_cons, total_nil,
          FrameStreamEvent.announced, hsize]
        omega
    | takeEnd | takeNone =>
        simp only [YamuxStreamHead.tryCloseLocal_eq, total_append]
        split <;> simpa using hp
    | header flags size =>
        simp only [YamuxStreamHead.flagged, total_append, total_cons, total_nil,
          FrameStreamEvent.delta]
        split <;> simpa [FrameStreamEvent.announced] using hp
    | window flags delta =>
        simp only [YamuxStreamHead.flagged, total_append, total_cons, total_nil,
          FrameStreamEvent.delta]
        split <;> simp [FrameStreamEvent.announced] <;> omega
    | chunk bytes =>
        simp only [YamuxStreamHead.markReceivedBytes_eq, total_append, total_cons, total_nil,
          FrameStreamEvent.delta]
        split <;> simpa using hp
    | _ => exact hp

/-- The receive counter stays a full chunk below the threshold. -/
theorem recv_lt (h : PairReachable opened id p) :
    p.head.window.recv + defaultChunkCapacity < defaultWindowUpdateThreshold.toNat := by
  refine h.invariant ?_ ?_
  · rintro p rfl
    have hzero : 0 + defaultChunkCapacity < defaultWindowUpdateThreshold.toNat := by decide
    cases opened <;> exact hzero
  · rintro p q hp hstep
    cases hstep with
    | chunk bytes =>
        by_cases hd : p.head.dueCredit bytes.length = true
        · simp only [YamuxStreamHead.markReceivedBytes_eq, hd, if_true]
          decide
        · simp only [YamuxStreamHead.markReceivedBytes_eq, hd]
          simp only [YamuxStreamHead.dueCredit, decide_eq_true_eq, Nat.not_le] at hd
          exact hd
    | takeEnd | takeNone => simpa only [YamuxStreamHead.tryCloseLocal_eq] using hp
    | _ => exact hp

/-- The receive counter and the credit given back make up the payload
received, as long as no chunk is so large that a window update overflows. -/
theorem recv_accounting (h : PairReachable opened id p)
    (hsmall : ∀ c, .dataChunk c ∈ p.inputs →
      c.length + defaultWindowUpdateThreshold.toNat ≤ UInt32.size) :
    p.head.window.recv + total FrameStreamEvent.credit p.history = (payloadOf p.inputs).length := by
  revert hsmall
  refine h.invariant_with (fun _ => recv_lt) ?_ ?_
  · rintro p rfl _
    cases opened <;> rfl
  · rintro p q hlt hp hstep hsmall
    simp only [StreamPair.history, total_append] at hp ⊢
    cases hstep with
    | yield _ ho =>
        have hp' := hp hsmall
        rw [ho, total_cons] at hp'
        simp only [total_append, total_cons, total_nil]
        omega
    | take =>
        have hp' := hp hsmall
        simp only [YamuxStreamHead.sendChunk, total_append, total_cons, total_nil,
          FrameStreamEvent.credit]
        omega
    | takeEnd | takeNone =>
        have hp' := hp hsmall
        simp only [YamuxStreamHead.tryCloseLocal_eq, total_append]
        split <;> simpa using hp'
    | header flags size | window flags delta =>
        have hp' := hp fun c hc => hsmall c (List.mem_append_left _ hc)
        simp only [YamuxStreamHead.flagged, total_append, payloadOf_append]
        split <;>
          simpa [FrameStreamEvent.credit, FrameStreamEvent.payload, Flags.onlyFin, Flags.empty]
            using hp'
    | chunk bytes =>
        have hp' := hp fun c hc => hsmall c (List.mem_append_left _ hc)
        have hbytes := hsmall bytes (by simp)
        have hwrap : (UInt32.ofNat (p.head.window.recv + bytes.length)).toNat =
            p.head.window.recv + bytes.length :=
          UInt32.toNat_ofNat_of_lt' (by omega)
        have hpayload : (payloadOf (p.inputs ++ [.dataChunk bytes])).length =
            (payloadOf p.inputs).length + bytes.length := by
          simp [FrameStreamEvent.payload]
        rw [hpayload]
        simp only [YamuxStreamHead.markReceivedBytes_eq, total_append]
        split
        · simp only [total_cons, total_nil, credit_creditEvent, hwrap]
          omega
        · simp only [total_nil]
          omega
    | _ => exact hp hsmall

/-- The local half is closed exactly when `FIN` has been put out. -/
theorem fin_history (h : PairReachable opened id p) :
    carried Flags.fin p.history = !p.head.state.localOpen := by
  refine h.invariant ?_ ?_
  · rintro p rfl
    cases opened <;> rfl
  · rintro p q hp hstep
    simp only [StreamPair.history, carried_append] at hp ⊢
    cases hstep with
    | yield _ ho =>
        rw [ho] at hp
        simpa [Bool.or_assoc] using hp
    | take =>
        simpa [YamuxStreamHead.sendChunk, FrameStreamEvent.carries, FrameStreamEvent.flags,
          Flags.empty] using hp
    | takeEnd | takeNone =>
        simp only [YamuxStreamHead.tryCloseLocal_eq, carried_append]
        cases hl : p.head.state.localOpen with
        | true => simp
        | false => simpa [hl] using hp
    | header flags size | window flags delta =>
        simp only [YamuxStreamHead.flagged, carried_append]
        cases hl : p.head.state.localOpen with
        | true =>
            rw [hl] at hp
            cases hr : flags.rst with
            | true => simp [FrameStreamEvent.carries, FrameStreamEvent.flags, Flags.onlyFin]
            | false => simpa using hp
        | false =>
            rw [hl] at hp
            simpa using hp
    | chunk bytes =>
        simp only [YamuxStreamHead.markReceivedBytes_eq, carried_append]
        split <;> simpa using hp
    | _ => exact hp

end PairReachable

end YamuxLowMem
