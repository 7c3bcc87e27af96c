/-
YamuxLowMem/Lib/Framing.lean

Streams of fixed-size headers, some of which announce a payload.

A `Format` fixes the length of a header, how a header is parsed, and which
headers are followed by how many payload items, with a tag for them.  `decode`
is the whole-buffer meaning of a stream: a token for each complete header and
a token for each payload item, in order; a partial header at the end means
nothing yet.

An incremental reader has consumed part of the stream, has emitted tokens for
it, may be inside a payload, and holds the rest in a buffer.  `Reads` is the
invariant of such a reader.  It speaks about every continuation of the stream,
so that pushing more input is trivial, and its rules say what consuming a
header or part of a payload does.  Conversely `Writes` says which sequences of
headers and payload pieces may be written one after the other, and
`decodeFrom_flatten` that decoding what was written gives them back.
-/
import Mathlib.Data.List.Basic

namespace Framing

universe u v w

variable {α : Type u} {η : Type v} {τ : Type w}

/-- A format of headers with optional payloads. -/
structure Format (α : Type u) (η : Type v) (τ : Type w) where
  headLen : Nat
  headLen_pos : 0 < headLen
  parse : List α → η
  payload : η → Option (τ × Nat)

/-- What a stream consists of: headers and tagged payload items. -/
inductive Token (α : Type u) (η : Type v) (τ : Type w) where
  | head (h : η)
  | item (tag : τ) (a : α)
  deriving DecidableEq, Repr

namespace Format

variable (F : Format α η τ)

/-- The tokens of a whole stream. -/
def decode (bs : List α) : List (Token α η τ) :=
  if bs.length < F.headLen then []
  else
    let h := F.parse (bs.take F.headLen)
    let rest := bs.drop F.headLen
    match F.payload h with
    | none => .head h :: decode rest
    | some (tag, n) => .head h :: ((rest.take n).map (.item tag) ++ decode (rest.drop n))
termination_by bs.length
decreasing_by
  all_goals
    have := F.headLen_pos
    simp only [List.length_drop]
    omega

/-- The tokens of a stream that starts inside a payload. -/
def decodeFrom (pending : Option (τ × Nat)) (bs : List α) : List (Token α η τ) :=
  match pending with
  | none => F.decode bs
  | some (tag, n) => (bs.take n).map (.item tag) ++ F.decode (bs.drop n)

variable {F}

theorem decode_short {bs : List α} (h : bs.length < F.headLen) : F.decode bs = [] := by
  rw [decode, if_pos h]

@[simp] theorem decode_nil : F.decode [] = [] := decode_short F.headLen_pos

@[simp] theorem decodeFrom_nil (pending : Option (τ × Nat)) : F.decodeFrom pending [] = [] := by
  rcases pending with - | ⟨tag, n⟩ <;> simp [decodeFrom]

@[simp] theorem decodeFrom_none (bs : List α) : F.decodeFrom none bs = F.decode bs := rfl

@[simp] theorem decodeFrom_zero (tag : τ) (bs : List α) :
    F.decodeFrom (some (tag, 0)) bs = F.decode bs := by
  simp [decodeFrom]

/-- A complete header is decoded on its own. -/
theorem decode_head {hd rest : List α} (h : hd.length = F.headLen) :
    F.decode (hd ++ rest) = .head (F.parse hd) :: F.decodeFrom (F.payload (F.parse hd)) rest := by
  have hlen : ¬ (hd ++ rest).length < F.headLen := by
    rw [List.length_append, h]
    omega
  rw [decode, if_neg hlen]
  simp only [List.take_left' h, List.drop_left' h]
  rcases F.payload (F.parse hd) with - | ⟨tag, n⟩ <;> rfl

/-- Part of a payload is decoded on its own. -/
theorem decodeFrom_items {tag : τ} {n : Nat} {c rest : List α} (h : c.length ≤ n) :
    F.decodeFrom (some (tag, n)) (c ++ rest) =
      c.map (.item tag) ++ F.decodeFrom (some (tag, n - c.length)) rest := by
  simp only [decodeFrom, List.take_append, List.drop_append, List.take_of_length_le h,
    List.drop_eq_nil_of_le h, List.map_append, List.append_assoc, List.nil_append]

/-! ### Incremental reading -/

section Reading

/-- An incremental reader of the stream `pushed` has emitted `tokens`, is in
the state `pending` and still holds `buffered`: whatever comes next, the
meaning of the whole is what was emitted followed by the meaning of the rest. -/
def Reads (F : Format α η τ) (pushed : List α) (tokens : List (Token α η τ))
    (pending : Option (τ × Nat)) (buffered : List α) : Prop :=
  ∀ more, F.decode (pushed ++ more) = tokens ++ F.decodeFrom pending (buffered ++ more)

variable {pushed buffered rest c more : List α} {tokens : List (Token α η τ)}
  {pending : Option (τ × Nat)}

theorem Reads.start : F.Reads [] [] none [] := fun _ => rfl

theorem Reads.push (h : F.Reads pushed tokens pending buffered) (c : List α) :
    F.Reads (pushed ++ c) tokens pending (buffered ++ c) := by
  intro more
  rw [List.append_assoc, List.append_assoc]
  exact h (c ++ more)

theorem Reads.head {hd : List α} (h : F.Reads pushed tokens none (hd ++ rest))
    (hlen : hd.length = F.headLen) :
    F.Reads pushed (tokens ++ [.head (F.parse hd)]) (F.payload (F.parse hd)) rest := by
  intro more
  rw [h more, decodeFrom_none, List.append_assoc, decode_head hlen, List.append_assoc,
    List.singleton_append]

theorem Reads.items {tag : τ} {n : Nat} (h : F.Reads pushed tokens (some (tag, n)) (c ++ rest))
    (hle : c.length ≤ n) :
    F.Reads pushed (tokens ++ c.map (.item tag)) (some (tag, n - c.length)) rest := by
  intro more
  rw [h more, List.append_assoc, decodeFrom_items hle, List.append_assoc]

/-- A payload with nothing left to come is over. -/
theorem Reads.close {tag : τ} (h : F.Reads pushed tokens (some (tag, 0)) buffered) :
    F.Reads pushed tokens none buffered := by
  intro more
  rw [h more, decodeFrom_zero, decodeFrom_none]

/-- What has been emitted is the front of the meaning of any stream that
starts with what was pushed. -/
theorem Reads.isPrefix (h : F.Reads pushed tokens pending buffered) (more : List α) :
    tokens <+: F.decode (pushed ++ more) := ⟨_, (h more).symm⟩

/-- A reader whose buffer means nothing on its own has emitted everything. -/
theorem Reads.complete (h : F.Reads pushed tokens pending buffered)
    (hnil : F.decodeFrom pending buffered = []) : F.decode pushed = tokens := by
  have := h []
  rwa [List.append_nil, List.append_nil, hnil, List.append_nil] at this

end Reading

/-! ### Writing -/

/-- A piece of a stream as it is written: a header, or part of a payload. -/
inductive Piece (α : Type u) (η : Type v) (τ : Type w) where
  | head (h : η) (bytes : List α)
  | items (tag : τ) (c : List α)

namespace Piece

/-- What is written for a piece. -/
def written : Piece α η τ → List α
  | head _ bytes => bytes
  | items _ c => c

def tokens : Piece α η τ → List (Token α η τ)
  | head h _ => [.head h]
  | items tag c => c.map (.item tag)

end Piece

variable (F) in
/-- The pieces may be written one after the other: a payload piece only where
that much of a payload with its tag is due, a header only where none is, and
a header's bytes parse to it. -/
inductive Writes : Option (τ × Nat) → List (Piece α η τ) → Prop where
  | nil (pending) : Writes pending []
  | items {tag n c pieces} : c.length ≤ n → Writes (some (tag, n - c.length)) pieces →
      Writes (some (tag, n)) (.items tag c :: pieces)
  | head {pending h bytes pieces} : (pending = none ∨ ∃ tag, pending = some (tag, 0)) →
      bytes.length = F.headLen → F.parse bytes = h → Writes (F.payload h) pieces →
      Writes pending (.head h bytes :: pieces)

/-- A payload with nothing left to come may be left. -/
theorem Writes.close {tag : τ} {pieces : List (Piece α η τ)} (h : F.Writes none pieces) :
    F.Writes (some (tag, 0)) pieces := by
  cases h with
  | nil => exact .nil _
  | head _ hlen hparse hrest => exact .head (Or.inr ⟨tag, rfl⟩) hlen hparse hrest

/-- Decoding what was written gives back what was meant. -/
theorem Writes.decodeFrom_flatten {pending : Option (τ × Nat)} {pieces : List (Piece α η τ)}
    (h : F.Writes pending pieces) :
    F.decodeFrom pending (pieces.flatMap Piece.written) = pieces.flatMap Piece.tokens := by
  induction h with
  | nil pending => simp
  | items hle _ ih =>
      simp only [List.flatMap_cons, Piece.written, Piece.tokens]
      rw [decodeFrom_items hle, ih]
  | @head due h bytes pieces hnone hlen hparse _ ih =>
      subst hparse
      have hdec : ∀ bs, F.decodeFrom due bs = F.decode bs := by
        rcases hnone with rfl | ⟨tag, rfl⟩
        · exact decodeFrom_none
        · exact decodeFrom_zero tag
      simp only [List.flatMap_cons, Piece.written, Piece.tokens]
      rw [hdec, decode_head hlen, ih, List.singleton_append]

end Format

end Framing
