/-
YamuxLowMem/HeadCredit.lean

The two windows of a head, in every run.

Sending: the head charges each chunk it takes to the send window.  The loop of
`poll_next` asks for room for a full chunk, and `poll_write` makes no larger
ones, so what is charged is there and the `saturating_sub` is a subtraction.
Receiving: the head counts the payload it has accepted and gives it back as
credit, all of it and nothing else, as long as a chunk is no larger than one
read of the transport.
-/
import YamuxLowMem.PairInv
import YamuxLowMem.Transport

namespace YamuxLowMem

open Async Relation

/-! ### Sending -/

/-- What arrives makes the head announce nothing. -/
theorem PairStep.announced_input {p q : StreamPair} (h : PairStep p q) (hin : q.inputs ≠ p.inputs) :
    total FrameStreamEvent.announced q.history = total FrameStreamEvent.announced p.history := by
  simp only [StreamPair.history, total_append]
  cases h with
  | header flags size | window flags delta =>
      simp only [YamuxStreamHead.flagged, total_append]
      split <;> simp [FrameStreamEvent.announced]
  | chunk bytes =>
      simp only [YamuxStreamHead.markReceivedBytes_eq, total_append]
      split <;> simp
  | _ => exact absurd rfl hin

/-- No move announces more than the window holds. -/
theorem PairReachable.announced_le {opened : Bool} {id : StreamID} {p q : StreamPair}
    (h : PairReachable opened id p) (hstep : PairStep p q) :
    total FrameStreamEvent.announced q.history ≤
      total FrameStreamEvent.announced p.history + p.head.window.send := by
  by_cases hin : q.inputs = p.inputs
  · have hp := h.send_accounting
    have hreach : PairReachable opened id q := h.step hstep
    have hq := hreach.send_accounting
    rw [hin] at hq
    omega
  · rw [hstep.announced_input hin]
    exact Nat.le_add_right _ _

/-- A chunk that the loop of `poll_next` may take is no longer than the window
it is charged to. -/
theorem PairReachable.chunk_le_send {opened : Bool} {id : StreamID} {p : StreamPair}
    (h : PairReachable opened id p) {chunk : Bytes} {rest : List Bytes}
    (hqueue : p.up.queue = chunk :: rest) (hroom : defaultChunkCapacity ≤ p.head.window.send) :
    chunk.length ≤ p.head.window.send := by
  apply Nat.le_trans _ hroom
  apply h.queue_bound.2
  rw [hqueue]
  exact List.mem_cons_self

/-- In every run of a head, and in every state inside one of its polls: the
send window and what the data headers have announced make up the initial
window and the credit received; the subtraction for a chunk that is taken is
exact; and no move announces more than the window holds. -/
theorem send_within_credit (opened : Bool) (id : StreamID) (ops : List PairOp) {p : StreamPair}
    (hp : ReflTransGen PairStep ((StreamPair.create opened id).run ops) p) :
    p.head.window.send + total FrameStreamEvent.announced p.history =
        initialWindow.toNat + total FrameStreamEvent.delta p.inputs ∧
      (∀ chunk rest, p.up.queue = chunk :: rest →
        defaultChunkCapacity ≤ p.head.window.send →
        (p.head.sendChunk chunk).window.send + chunk.length = p.head.window.send) ∧
      ∀ q, PairStep p q → total FrameStreamEvent.announced q.history ≤
        total FrameStreamEvent.announced p.history + p.head.window.send := by
  have hreach : PairReachable opened id p :=
    (StreamPair.run_reachable opened id ops).1.steps hp
  refine ⟨hreach.send_accounting, ?_, fun q => hreach.announced_le⟩
  intro chunk rest hqueue hroom
  exact Nat.sub_add_cancel (hreach.chunk_le_send hqueue hroom)

/-- A stream is accepted, and the application writes three bytes. -/
theorem send_within_credit_write :
    let p := (StreamPair.create false ⟨1⟩).run [.handle (.write [1, 2, 3]), .poll, .poll]
    p.head.window.send + total FrameStreamEvent.announced p.history =
        initialWindow.toNat + total FrameStreamEvent.delta p.inputs ∧
      (∀ chunk rest, p.up.queue = chunk :: rest →
        defaultChunkCapacity ≤ p.head.window.send →
        (p.head.sendChunk chunk).window.send + chunk.length = p.head.window.send) ∧
      ∀ q, PairStep p q → total FrameStreamEvent.announced q.history ≤
        total FrameStreamEvent.announced p.history + p.head.window.send :=
  send_within_credit false ⟨1⟩ [.handle (.write [1, 2, 3]), .poll, .poll] .refl

/-! ### Receiving -/

/-- Every window update without flags gives something back. -/
def PositiveCredit (es : List FrameStreamEvent) : Prop :=
  ∀ delta, .windowUpdate Flags.empty delta ∈ es → 0 < delta

theorem positiveCredit_append {es es' : List FrameStreamEvent} :
    PositiveCredit (es ++ es') ↔ PositiveCredit es ∧ PositiveCredit es' := by
  simp only [PositiveCredit, List.mem_append, or_imp, forall_and]

/-- With `n` more bytes a window update is due, but their number is a multiple
of `2 ^ 32` and the cast leaves nothing of it. -/
def YamuxStreamHead.creditLost (h : YamuxStreamHead) (n : Nat) : Bool :=
  h.dueCredit n && decide (UInt32.ofNat (h.window.recv + n) = 0)

/-- A move keeps the credit positive unless a chunk arrives whose credit is lost. -/
theorem PairStep.positiveCredit_iff {p q : StreamPair} (h : PairStep p q) :
    PositiveCredit q.history ↔ PositiveCredit p.history ∧
      ∀ bytes, q.inputs = p.inputs ++ [.dataChunk bytes] →
        p.head.creditLost bytes.length = false := by
  -- every move but `chunk` puts out nothing that counts
  have other : ∀ new : List FrameStreamEvent, q.history = p.history ++ new →
      PositiveCredit new → (∀ bytes, q.inputs ≠ p.inputs ++ [.dataChunk bytes]) →
      (PositiveCredit q.history ↔ PositiveCredit p.history ∧
        ∀ bytes, q.inputs = p.inputs ++ [.dataChunk bytes] →
          p.head.creditLost bytes.length = false) := by
    intro new hnew hpos hin
    rw [hnew, positiveCredit_append]
    exact and_congr_right fun _ => iff_of_true hpos fun bytes hb => absurd hb (hin bytes)
  have hsame : ∀ bytes, p.inputs ≠ p.inputs ++ [.dataChunk bytes] := by
    intro bytes hb
    simp at hb
  have hnil : PositiveCredit [] := fun _ h => absurd h List.not_mem_nil
  have hfin : ∀ b : Bool, PositiveCredit (if b then [finEvent] else []) := by
    intro b delta hd
    cases b <;> simp [finEvent, Flags.onlyFin, Flags.empty] at hd
  cases h with
  | yield _ ho => exact other [] (by simp [StreamPair.history, ho]) hnil hsame
  | take =>
      refine other _ (by simp [StreamPair.history, YamuxStreamHead.sendChunk]; rfl) ?_ hsame
      intro delta hd
      simp at hd
  | takeEnd | takeNone =>
      refine other (if p.head.state.localOpen then [finEvent] else []) ?_ (hfin _) hsame
      simp [StreamPair.history, YamuxStreamHead.tryCloseLocal_eq]
  | header flags size | window flags delta =>
      refine other (if flags.rst && p.head.state.localOpen then [finEvent] else []) ?_ (hfin _)
        (by simp)
      simp [StreamPair.history, YamuxStreamHead.flagged, finEvent]
  | chunk bytes =>
      rw [StreamPair.history, YamuxStreamHead.markReceivedBytes_eq]
      show PositiveCredit (p.emitted ++ (p.head.outs ++ _)) ↔ _
      rw [← List.append_assoc, positiveCredit_append]
      apply and_congr_right
      intro _
      have hbytes : (∀ bytes', p.inputs ++ [.dataChunk bytes] = p.inputs ++ [.dataChunk bytes'] →
          p.head.creditLost bytes'.length = false) ↔ p.head.creditLost bytes.length = false := by
        simp
      rw [hbytes, YamuxStreamHead.creditLost]
      cases hd : p.head.dueCredit bytes.length with
      | false => exact iff_of_true hnil rfl
      | true => simp [PositiveCredit, creditEvent, UInt32.pos_iff_ne_zero]
  | _ => exact other [] (List.append_nil _).symm hnil hsame

/-- A chunk of the size the transport reads is given back in full. -/
theorem PairReachable.creditLost_eq {opened : Bool} {id : StreamID} {p : StreamPair}
    (h : PairReachable opened id p) {n : Nat}
    (hn : n + defaultWindowUpdateThreshold.toNat ≤ UInt32.size) :
    p.head.creditLost n = false := by
  have hlt := h.recv_lt
  have hwrap : (UInt32.ofNat (p.head.window.recv + n)).toNat = p.head.window.recv + n :=
    UInt32.toNat_ofNat_of_lt' (by omega)
  by_contra hlost
  rw [Bool.not_eq_false, YamuxStreamHead.creditLost, Bool.and_eq_true, decide_eq_true_eq] at hlost
  obtain ⟨hdue, hzero⟩ := hlost
  rw [hzero] at hwrap
  -- nothing at all is not enough for a window update
  rw [YamuxStreamHead.dueCredit, decide_eq_true_eq, ← hwrap] at hdue
  exact absurd hdue (by decide)

/-- The chunks that have been accepted are no larger than one read. -/
def SmallChunks (p : StreamPair) : Prop :=
  ∀ c, .dataChunk c ∈ p.inputs → c.length ≤ readBufferLen

theorem size_of_small {n : Nat} (h : n ≤ readBufferLen) :
    n + defaultWindowUpdateThreshold.toNat ≤ UInt32.size := by
  have hsize : readBufferLen + defaultWindowUpdateThreshold.toNat ≤ UInt32.size := by decide
  omega

theorem PairReachable.positiveCredit {opened : Bool} {id : StreamID} {p : StreamPair}
    (h : PairReachable opened id p) (hsmall : SmallChunks p) : PositiveCredit p.history := by
  revert hsmall
  induction h with
  | init hinit =>
      obtain rfl := hinit
      intro _ delta hd
      cases opened <;>
        simp [StreamPair.history, StreamPair.create, StreamPair.openStream,
          StreamPair.acceptStream, StreamPair.ofHead, YamuxStreamHead.open, YamuxStreamHead.accept,
          Flags.onlySyn, Flags.onlyAck, Flags.empty] at hd
  | @step p q hreach hstep ih =>
      intro hsmall
      have hbefore : SmallChunks p := fun c hc =>
        hsmall c ((PairStep.inputs_prefix hstep).subset hc)
      apply (PairStep.positiveCredit_iff hstep).mpr
      refine ⟨ih hbefore, ?_⟩
      intro bytes hin
      apply PairReachable.creditLost_eq hreach
      apply size_of_small
      apply hsmall
      rw [hin]
      exact List.mem_append_right _ List.mem_cons_self

/-- A head has accepted nothing that was not fed to it. -/
theorem StreamPair.mem_inputs_run (opened : Bool) (id : StreamID) (ops : List PairOp)
    {e : FrameStreamEvent} (he : e ∈ ((create opened id).run ops).inputs) : .input e ∈ ops := by
  induction ops using List.reverseRecOn with
  | nil => cases opened <;> cases he
  | append_singleton ops op ih =>
      rw [run_concat] at he
      cases op with
      | poll => exact List.mem_append_left _ (ih he)
      | handle op =>
          rw [step, (handleOp_frame op).2.2] at he
          exact List.mem_append_left _ (ih he)
      | input event =>
          obtain ⟨-, halive⟩ := run_reachable opened id ops
          cases hin : ((create opened id).run ops).onInput event with
          | mk result q =>
              rw [step, hin] at he
              cases result with
              | error err =>
                  obtain rfl := onInput_error hin
                  exact List.mem_append_left _ (ih he)
              | ok =>
                  rw [(onInput_ok halive hin).2] at he
                  rcases List.mem_append.mp he with he | he
                  · exact List.mem_append_left _ (ih he)
                  · rw [List.mem_singleton.mp he]
                    exact List.mem_append_right _ List.mem_cons_self

/-- What accepting a chunk does to the receive window: it is counted, or given
back together with all that was counted before. -/
theorem StreamPair.onInput_chunk_credit {p q : StreamPair} {bytes : Bytes}
    (h : p.onInput (.dataChunk bytes) = (.ok (), q)) :
    (q.history = p.history ∧ q.head.window.recv = p.head.window.recv + bytes.length) ∨
      (q.history = p.history ++ [creditEvent (p.head.window.recv + bytes.length)] ∧
        q.head.window.recv = 0) := by
  obtain ⟨due, -, -, rfl⟩ := onInput_chunk_ok h
  simp only [history, YamuxStreamHead.markReceivedBytes_eq]
  cases p.head.dueCredit bytes.length with
  | false => exact Or.inl ⟨by simp, rfl⟩
  | true => exact Or.inr ⟨by simp, rfl⟩

/-- In every run of a head in which no chunk is larger than one read of the
transport: the receive counter and the credit given back make up the payload
accepted; the counter stays a full chunk below the threshold; every window
update without flags gives something back; and each gives back, unchanged by
the cast, exactly what has been counted. -/
theorem receive_credit_exact (opened : Bool) (id : StreamID) (ops : List PairOp)
    (hsmall : ∀ c, .input (.dataChunk c) ∈ ops → c.length ≤ readBufferLen) :
    let p := (StreamPair.create opened id).run ops
    total FrameStreamEvent.credit p.history + p.head.window.recv = (payloadOf p.inputs).length ∧
      p.head.window.recv + defaultChunkCapacity < defaultWindowUpdateThreshold.toNat ∧
      PositiveCredit p.history ∧
      ∀ c q, c.length ≤ readBufferLen → p.onInput (.dataChunk c) = (.ok (), q) →
        (q.history = p.history ∧ q.head.window.recv = p.head.window.recv + c.length) ∨
          ∃ delta : UInt32, delta.toNat = p.head.window.recv + c.length ∧
            q.history = p.history ++ [.windowUpdate Flags.empty delta] ∧
            q.head.window.recv = 0 := by
  intro p
  have hreach : PairReachable opened id p := (StreamPair.run_reachable opened id ops).1
  have hchunks : SmallChunks p := fun c hc =>
    hsmall c (StreamPair.mem_inputs_run opened id ops hc)
  have hlt := hreach.recv_lt
  refine ⟨?_, hlt, hreach.positiveCredit hchunks, ?_⟩
  · rw [Nat.add_comm]
    exact hreach.recv_accounting fun c hc => size_of_small (hchunks c hc)
  · intro c q hc hin
    rcases StreamPair.onInput_chunk_credit hin with hcounted | ⟨hhistory, hrecv⟩
    · exact Or.inl hcounted
    · refine Or.inr ⟨_, ?_, hhistory, hrecv⟩
      apply UInt32.toNat_ofNat_of_lt'
      have hsize := size_of_small hc
      omega

/-- The peer announces half a window, and so many chunks of it arrive. -/
def halfWindow (n : Nat) (chunk : Bytes) : List PairOp :=
  .input (.data Flags.empty 131072) :: List.replicate n (.input (.dataChunk chunk))

theorem halfWindow_succ (p : StreamPair) (n : Nat) (chunk : Bytes) :
    p.run (halfWindow (n + 1) chunk) =
      ((p.run (halfWindow n chunk)).onInput (.dataChunk chunk)).2 := by
  have hops : halfWindow (n + 1) chunk = halfWindow n chunk ++ [.input (.dataChunk chunk)] := by
    rw [halfWindow, halfWindow, List.replicate_succ', List.cons_append]
  rw [hops, StreamPair.run_concat]
  rfl

/-- Chunks as long as one read are counted, up to the threshold. -/
theorem halfWindow_run {chunk : Bytes} (hlen : chunk.length = 4096) {n : Nat} (hn : n ≤ 31) :
    let p := (StreamPair.create false ⟨1⟩).run (halfWindow n chunk)
    p.head.recvState = some (131072 - n * 4096) ∧ p.head.window.recv = n * 4096 ∧
      p.history = [firstEvent false] := by
  induction n with
  | zero => exact ⟨rfl, rfl, rfl⟩
  | succ n ih =>
      obtain ⟨hstate, hrecv, hhistory⟩ := ih (Nat.le_of_succ_le hn)
      have hle : chunk.length ≤ 131072 - n * 4096 := by omega
      -- no credit is due yet
      have hdue : ((StreamPair.create false ⟨1⟩).run (halfWindow n chunk)).head.dueCredit
          chunk.length = false := by
        have hthreshold : defaultWindowUpdateThreshold.toNat = 131072 := rfl
        rw [YamuxStreamHead.dueCredit, hrecv, hlen, hthreshold, defaultChunkCapacity]
        exact decide_eq_false (by omega)
      intro p
      have hp : p = _ :=
        (halfWindow_succ _ n chunk).trans (congrArg Prod.snd (StreamPair.onInput_chunk hstate hle))
      rw [hp, YamuxStreamHead.markReceivedBytes_eq, hdue]
      refine ⟨?_, ?_, ?_⟩
      · show (if _ then _ else _) = _
        rw [hlen, if_neg (by omega)]
        exact congrArg some (by omega)
      · show _ + chunk.length = _
        rw [hrecv, hlen, Nat.succ_mul]
      · show _ ++ (_ ++ []) = _
        rw [List.append_nil]
        exact hhistory

/-- Thirty-one chunks have been counted, and the next one is given back with
them. -/
theorem receive_credit_exact_halfWindow :
    ∃ chunk : Bytes, chunk.length = readBufferLen ∧
      let p := (StreamPair.create false ⟨1⟩).run (halfWindow 31 chunk)
      let q := (p.onInput (.dataChunk chunk)).2
      total FrameStreamEvent.credit p.history + p.head.window.recv = (payloadOf p.inputs).length ∧
        p.head.window.recv = 126976 ∧ PositiveCredit p.history ∧
        ∃ delta : UInt32, delta.toNat = 131072 ∧
          q.history = [firstEvent false, .windowUpdate Flags.empty delta] ∧
          q.head.window.recv = 0 := by
  obtain ⟨chunk, hlen⟩ : ∃ chunk : Bytes, chunk.length = 4096 :=
    ⟨List.replicate 4096 0, List.length_replicate⟩
  have hsmall : ∀ n c, .input (.dataChunk c) ∈ halfWindow n chunk → c.length ≤ readBufferLen := by
    intro n c hc
    rw [halfWindow, List.mem_cons] at hc
    obtain hc := hc.resolve_left (by simp)
    obtain rfl : c = chunk := by simpa using (List.mem_replicate.mp hc).2
    exact Nat.le_of_eq hlen
  refine ⟨chunk, hlen, ?_⟩
  have hstart := halfWindow_run hlen (Nat.le_refl 31)
  have hexact := receive_credit_exact false ⟨1⟩ _ (hsmall 31)
  have hlater := receive_credit_exact false ⟨1⟩ _ (hsmall (31 + 1))
  rw [halfWindow_succ] at hlater
  generalize (StreamPair.create false ⟨1⟩).run (halfWindow 31 chunk) = p at hstart hexact hlater ⊢
  obtain ⟨hstate, hrecv, hhistory⟩ := hstart
  obtain ⟨htotal, -, hpositive, hnext⟩ := hexact
  have hroom : chunk.length ≤ 131072 - 31 * 4096 := by omega
  have hin := StreamPair.onInput_chunk hstate hroom
  refine ⟨htotal, hrecv, hpositive, ?_⟩
  rw [hin] at hlater ⊢
  rcases hnext chunk _ (Nat.le_of_eq hlen) hin with ⟨-, hcounted⟩ | ⟨delta, hdelta, hnew, hzero⟩
  · -- counted, it would take the counter to the threshold
    have hlt := hlater.2.1
    rw [hcounted, hrecv, hlen] at hlt
    exact absurd hlt (by decide)
  · refine ⟨delta, by omega, ?_, hzero⟩
    rw [hnew, hhistory]
    rfl

end YamuxLowMem
