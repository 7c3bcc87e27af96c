/-
YamuxLowMem/Lib/Gate.lean

A queue of items behind a byte buffer that a consumer empties as it likes.

Only sizes are counted.  The bytes lie in blocks of a fixed size, and the
consumer is offered one block at a time: of the first block, what it has not
taken yet.  It answers each offer with a number of bytes it takes, or with
`pending`, or with an error.  Before an item is admitted to the buffer, the
buffer is offered until it is empty, or an answer puts an end to it; only
`pending` with the buffer at its limit keeps the item out, and with it all
items behind it.

So what becomes of the items is told by the sizes and the answers alone.
-/
import YamuxLowMem.Lib.Async
import Mathlib.Algebra.Order.Group.Nat

namespace Gate

open Async

/-- Bytes in blocks: how many bytes of the first block are gone, and how many
bytes wait in all. -/
structure Buffer where
  skip : ℕ
  len : ℕ
  deriving DecidableEq, Repr

namespace Buffer

/-- The bytes of the first block that wait. -/
def offered (size : ℕ) (b : Buffer) : ℕ := min b.len (size - b.skip)

/-- The consumer takes bytes of the first block. -/
def take (size n : ℕ) (b : Buffer) : Buffer :=
  { skip := if n = b.offered size then 0 else b.skip + n, len := b.len - n }

/-- Bytes are added at the end. -/
def put (n : ℕ) (b : Buffer) : Buffer := { b with len := b.len + n }

end Buffer

/-- How a flush ends. -/
inductive Outcome where
  | done
  | blocked
  | failed
  deriving DecidableEq, Repr

variable {ε α : Type*} {size limit : ℕ} {weight : α → ℕ}

/-- Offer the buffer until it is empty, or an answer puts an end to it; where
the answers end, the consumer is pending.  The result is the buffer, and the
answers that are left. -/
def flush (size : ℕ) : List (Poll (Except ε ℕ)) → Buffer →
    Outcome × Buffer × List (Poll (Except ε ℕ))
  | [], b => if b.len = 0 then (.done, b, []) else (.blocked, b, [])
  | answer :: answers, b =>
      if b.len = 0 then (.done, b, answer :: answers)
      else
        match answer with
        | .pending => (.blocked, b, answers)
        | .ready (.error _) => (.failed, b, answers)
        | .ready (.ok n) => flush size answers (b.take size (min n (b.offered size)))

/-- An empty buffer is done at once. -/
theorem flush_empty {b : Buffer} (h : b.len = 0) (answers : List (Poll (Except ε ℕ))) :
    flush size answers b = (.done, b, answers) := by
  cases answers <;> simp [flush, h]

/-- What becomes of a queue of items: the items that are not admitted, the
buffer, the answers that are left, and whether a flush before an item that was
admitted has failed. -/
structure Passage (ε α : Type*) where
  rest : List α
  buffer : Buffer
  answers : List (Poll (Except ε ℕ))
  failed : Bool

/-- Admit the items one by one, until one is refused. -/
def letIn (size limit : ℕ) (weight : α → ℕ) :
    List α → Buffer → List (Poll (Except ε ℕ)) → Passage ε α
  | [], b, answers => { rest := [], buffer := b, answers := answers, failed := false }
  | x :: xs, b, answers =>
      let f := flush size answers b
      if f.1 = .blocked ∧ limit ≤ f.2.1.len then
        { rest := x :: xs, buffer := f.2.1, answers := f.2.2, failed := false }
      else
        let p := letIn size limit weight xs (f.2.1.put (weight x)) f.2.2
        { p with failed := decide (f.1 = .failed) || p.failed }

end Gate
