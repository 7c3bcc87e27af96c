/-
YamuxLowMem/HeadGrammar.lean

The grammar of what a head puts out.

Events are queued in five places and yielded in two, but every move of a head
puts out one piece: a data header with its chunk, a window update for received
payload, or its `FIN`.  The first event is the `SYN` or `ACK` of the
constructor.  The one thing a head cannot promise in every environment is that
a window update gives something back: the counter is cast to `u32`, and a
single chunk of four gigabytes can bring it to a multiple of `2 ^ 32`.
-/
import YamuxLowMem.HeadCredit

namespace YamuxLowMem

open Async Relation

/-! ### At most one `FIN` -/

/-- The events that carry `FIN`. -/
def finCount (es : List FrameStreamEvent) : Nat := es.countP (FrameStreamEvent.carries Flags.fin)

theorem finCount_append (es es' : List FrameStreamEvent) :
    finCount (es ++ es') = finCount es + finCount es' := List.countP_append

theorem finCount_eq_zero {es : List FrameStreamEvent} (h : carried Flags.fin es = false) :
    finCount es = 0 := by
  apply List.countP_eq_zero.mpr
  exact List.any_eq_false.mp h

/-- What one move puts out contains at most one `FIN`, and one only if the
local half was open. -/
theorem PutOut.finCount {p q : StreamPair} {new : List FrameStreamEvent} (h : PutOut p q new) :
    finCount new ≤ 1 ∧ (p.head.state.localOpen = false → YamuxLowMem.finCount new = 0) := by
  cases h with
  | none => exact ⟨Nat.zero_le _, fun _ => rfl⟩
  | fin hopen =>
      refine ⟨Nat.le_refl _, ?_⟩
      intro hclosed
      rw [hopen] at hclosed
      cases hclosed
  | block => exact ⟨Nat.zero_le _, fun _ => rfl⟩
  | credit n => exact ⟨Nat.zero_le _, fun _ => rfl⟩

theorem PairReachable.finCount_le {opened : Bool} {id : StreamID} {p : StreamPair}
    (h : PairReachable opened id p) : finCount p.history ≤ 1 := by
  refine h.invariant_with (fun _ hs => PairReachable.fin_history hs) ?_ ?_
  · rintro p rfl
    cases opened <;> exact Nat.zero_le _
  · rintro p q hfin hp hstep
    obtain ⟨new, hnew, hput⟩ := hstep.putOut
    obtain ⟨hone, hzero⟩ := hput.finCount
    rw [hnew, finCount_append]
    cases hlocal : p.head.state.localOpen with
    | true =>
        rw [hlocal] at hfin
        rw [finCount_eq_zero hfin, Nat.zero_add]
        exact hone
    | false =>
        rw [hzero hlocal, Nat.add_zero]
        exact hp

/-! ### The grammar -/

/-- What a head puts out after its first event in any environment: a window update
need not give anything. -/
structure Outline (rest : List FrameStreamEvent) : Prop where
  syn : carried Flags.syn rest = false
  ack : carried Flags.ack rest = false
  /-- data headers without flags, each with its chunk of one byte up to the
  default capacity, and window updates -/
  blocks : Blocks rest
  windows : ∀ flags delta, .windowUpdate flags delta ∈ rest →
    flags = Flags.empty ∨ flags = Flags.onlyFin ∧ delta = 0
  fin : finCount rest ≤ 1

/-- What a head should put out after its first event: window updates give credit
or close the local half. -/
structure Body (rest : List FrameStreamEvent) : Prop extends Outline rest where
  credit : PositiveCredit rest

/-- A head puts out `SYN` or `ACK` with the initial window first. -/
def Outlined (opened : Bool) (es : List FrameStreamEvent) : Prop :=
  ∃ rest, es = firstEvent opened :: rest ∧ Outline rest

/-- What a head should put out. -/
def Grammatical (opened : Bool) (es : List FrameStreamEvent) : Prop :=
  ∃ rest, es = firstEvent opened :: rest ∧ Body rest

theorem credit_ne_firstEvent (opened : Bool) (delta : UInt32) :
    .windowUpdate Flags.empty delta ≠ firstEvent opened := by
  cases opened <;> simp [firstEvent, Flags.empty, Flags.onlySyn, Flags.onlyAck]

theorem Later.not_carries {e : FrameStreamEvent} (h : Later e) :
    e.carries Flags.syn = false ∧ e.carries Flags.ack = false := by
  cases e with
  | windowUpdate flags delta =>
      rcases h with rfl | ⟨rfl, rfl⟩ <;> exact ⟨rfl, rfl⟩
  | data flags size =>
      obtain rfl : flags = Flags.empty := h
      exact ⟨rfl, rfl⟩
  | dataChunk chunk => exact ⟨rfl, rfl⟩

/-- All but the credit is in order in any environment. -/
theorem PairReachable.outlined {opened : Bool} {id : StreamID} {p : StreamPair}
    (h : PairReachable opened id p) : Outlined opened p.history := by
  obtain ⟨rest, hrest, hblocks, hlater⟩ := h.outgoing
  have hcount := h.finCount_le
  rw [hrest] at hcount
  refine ⟨rest, hrest, ?_, ?_, hblocks, fun flags delta hd => hlater _ hd, ?_⟩
  · exact List.any_eq_false.mpr fun e he => by simp [(hlater e he).not_carries.1]
  · exact List.any_eq_false.mpr fun e he => by simp [(hlater e he).not_carries.2]
  · rw [← List.singleton_append, finCount_append] at hcount
    omega

theorem PairReachable.grammatical_iff {opened : Bool} {id : StreamID} {p : StreamPair}
    (h : PairReachable opened id p) : Grammatical opened p.history ↔ PositiveCredit p.history := by
  obtain ⟨rest, hrest, houtline⟩ := h.outlined
  constructor
  · rintro ⟨rest', hrest', hbody⟩ delta hd
    rw [hrest'] at hd
    rcases List.mem_cons.mp hd with hd | hd
    · exact absurd hd (credit_ne_firstEvent opened delta)
    · exact hbody.credit delta hd
  · intro hpos
    rw [hrest] at hpos
    exact ⟨rest, hrest, houtline, fun delta hd => hpos delta (List.mem_cons_of_mem _ hd)⟩

/-! ### Runs -/

/-- Moves that take in nothing put out no credit. -/
theorem positiveCredit_steps {p q : StreamPair} (hsteps : ReflTransGen PairStep p q)
    (hin : q.inputs = p.inputs) : PositiveCredit q.history ↔ PositiveCredit p.history := by
  have hquiet := quiet_steps hsteps hin
  clear hsteps hin
  induction hquiet with
  | refl => exact Iff.rfl
  | tail _ hstep ih =>
      refine hstep.1.positiveCredit_iff.trans ((and_iff_left ?_).trans ih)
      intro bytes hbytes
      rw [hstep.2] at hbytes
      simp at hbytes

/-- A step of a run keeps the credit positive unless it makes the head accept a
chunk whose credit is lost. -/
theorem StreamPair.positiveCredit_step {p : StreamPair} (halive : p.headAlive) (op : PairOp) :
    PositiveCredit (p.step op).history ↔ PositiveCredit p.history ∧
      ∀ c, op = .input (.dataChunk c) → (p.onInput (.dataChunk c)).1 = .ok () →
        p.head.creditLost c.length = false := by
  cases op with
  | poll =>
      rw [step, positiveCredit_steps (pollNext_steps halive) pollNext_inputs]
      simp
  | handle op =>
      rw [step, positiveCredit_steps (handleOp_steps op) (handleOp_frame op).2.2]
      simp
  | input event =>
      cases hin : p.onInput event with
      | mk result q =>
          rw [step, hin]
          cases result with
          | error e =>
              rw [onInput_error hin]
              -- a refused chunk gives no credit back
              refine (and_iff_left ?_).symm
              rintro c hc hok
              obtain rfl : event = .dataChunk c := by simpa using hc
              rw [hin] at hok
              cases hok
          | ok =>
              obtain ⟨hstep, hinputs⟩ := onInput_ok halive hin
              rw [hstep.positiveCredit_iff, hinputs]
              apply and_congr_right
              intro _
              constructor
              · rintro h c hc -
                obtain rfl : event = .dataChunk c := by simpa using hc
                exact h c rfl
              · intro h c hc
                obtain rfl : event = .dataChunk c := by simpa using hc
                exact h c rfl (by rw [hin])

/-- In every run of a head, in any environment: what it has yielded and what it
has queued is in order in every state, up to what the window updates give; and
they all give something exactly when no chunk the head accepts has its credit
lost by the cast. -/
theorem head_grammar (opened : Bool) (id : StreamID) (ops : List PairOp) :
    (∀ pre, pre <+: ops → Outlined opened ((StreamPair.create opened id).run pre).history) ∧
      ((∀ pre, pre <+: ops →
          Grammatical opened ((StreamPair.create opened id).run pre).history) ↔
        ∀ pre c, pre ++ [.input (.dataChunk c)] <+: ops →
          (((StreamPair.create opened id).run pre).onInput (.dataChunk c)).1 = .ok () →
          ((StreamPair.create opened id).run pre).head.creditLost c.length = false) := by
  have hreach : ∀ pre, PairReachable opened id ((StreamPair.create opened id).run pre) :=
    fun pre => (StreamPair.run_reachable opened id pre).1
  have hinit : Grammatical opened (StreamPair.create opened id).history := by
    refine ⟨[], ?_, ⟨rfl, rfl, .nil, fun _ _ h => absurd h List.not_mem_nil, Nat.zero_le _⟩,
      fun _ h => absurd h List.not_mem_nil⟩
    cases opened <;> rfl
  have hruns := Run.throughout_iff StreamPair.step ops
    (P := fun p => Grammatical opened p.history)
    (C := fun p op => ∀ c, op = .input (.dataChunk c) →
      (p.onInput (.dataChunk c)).1 = .ok () → p.head.creditLost c.length = false)
    hinit ?_
  · refine ⟨fun pre _ => (hreach pre).outlined, ?_⟩
    refine hruns.trans ⟨fun h pre c hpre => h pre _ hpre c rfl, ?_⟩
    rintro h pre op hpre c rfl
    exact h pre c hpre
  · intro pre op _ hpre
    have hnext : PairReachable opened id (((StreamPair.create opened id).run pre).step op) :=
      StreamPair.run_concat _ pre op ▸ hreach (pre ++ [op])
    have hpos := (hreach pre).grammatical_iff.mp hpre
    refine hnext.grammatical_iff.trans ?_
    refine (StreamPair.positiveCredit_step (StreamPair.run_reachable opened id pre).2 op).trans ?_
    exact and_iff_right hpos

/-- A byte arrives, and four gigabytes less one are announced. -/
def announceHuge : List PairOp :=
  [.input (.data Flags.empty 1), .input (.dataChunk [0]), .input (.data Flags.empty 4294967295)]

/-- An accepted stream to which this has happened. -/
def hugeAnnounced : StreamPair := (StreamPair.create false ⟨1⟩).run announceHuge

/-- They arrive in one chunk, and the next events yielded are the `ACK` and a
window update of nothing. -/
theorem hugeAnnounced_run {c : Bytes} (hc : c.length = 4294967295) :
    (hugeAnnounced.run [.input (.dataChunk c), .poll, .poll]).emitted =
      [firstEvent false, .windowUpdate Flags.empty 0] := by
  have hrecv : hugeAnnounced.head.recvState = some 4294967295 := by decide
  have houts : hugeAnnounced.head.outs = [firstEvent false] := by decide
  have hcount : hugeAnnounced.head.window.recv = 1 := by decide
  have hdue : hugeAnnounced.head.dueCredit 4294967295 = true := by decide
  have hemitted : hugeAnnounced.emitted = [] := by decide
  have hin := StreamPair.onInput_chunk hrecv (Nat.le_of_eq hc)
  simp only [YamuxStreamHead.markReceivedBytes_eq, hc, hdue, hcount, houts, if_true] at hin
  simp only [StreamPair.run, List.foldl_cons, List.foldl_nil, StreamPair.step, hin]
  simp only [StreamPair.pollNext, YamuxStreamHead.pollNext, List.cons_append, List.nil_append,
    hemitted]
  rfl

/-- So the events a head yields need not go on in order. -/
theorem head_grammar_overflow :
    ¬ ∀ (opened : Bool) (id : StreamID) (ops : List PairOp),
      ∃ more, Grammatical opened (((StreamPair.create opened id).run ops).emitted ++ more) := by
  intro h
  have hlen : (List.replicate 4294967295 (0 : UInt8)).length = 4294967295 := List.length_replicate
  have hrun := hugeAnnounced_run hlen
  obtain ⟨more, rest, hrest, hbody⟩ := h false ⟨1⟩
    (announceHuge ++ [.input (.dataChunk (List.replicate 4294967295 0)), .poll, .poll])
  rw [hugeAnnounced, StreamPair.run, StreamPair.run, ← List.foldl_append] at hrun
  rw [StreamPair.run, hrun] at hrest
  obtain ⟨-, hrest⟩ := List.cons.inj hrest
  have hmem : .windowUpdate Flags.empty 0 ∈ rest := by
    rw [← hrest]
    exact List.mem_cons_self
  exact absurd (hbody.credit 0 hmem) (by decide)

end YamuxLowMem
