/-
YamuxLowMem/Lib/BigEndian.lean

Numbers in network order.

`ofBytes` is the number a list of bytes stands for, most significant byte
first, and `toBytes k` the `k` low bytes of a number; they are inverse to each
other on numbers of `k` bytes.  `u16` and `u32` assemble the two sizes that
protocols use, and the shifts and masks that take such an integer apart give
its `toBytes`.
-/
import Mathlib.Algebra.Ring.Nat
import Mathlib.Data.List.Induction
import Mathlib.Tactic.NormNum

namespace BigEndian

/-- The number written in `bs`. -/
def ofBytes (bs : List UInt8) : Nat := bs.foldl (fun n b => n * 2 ^ 8 + b.toNat) 0

/-- The `k` low bytes of `n`. -/
def toBytes : Nat → Nat → List UInt8
  | 0, _ => []
  | k + 1, n => toBytes k (n / 2 ^ 8) ++ [UInt8.ofNat n]

/-- The 16-bit integer with bytes `b₁ b₂`, most significant first. -/
def u16 (b₁ b₂ : UInt8) : UInt16 :=
  UInt16.ofNat (b₁.toNat * 2 ^ 8 + b₂.toNat)

/-- The 32-bit integer with bytes `b₁ b₂ b₃ b₄`, most significant first. -/
def u32 (b₁ b₂ b₃ b₄ : UInt8) : UInt32 :=
  UInt32.ofNat (b₁.toNat * 2 ^ 24 + b₂.toNat * 2 ^ 16 + b₃.toNat * 2 ^ 8 + b₄.toNat)

/-! ### Writing, then reading -/

@[simp] theorem length_toBytes (k n : Nat) : (toBytes k n).length = k := by
  induction k generalizing n with
  | zero => rfl
  | succ k ih => simp [toBytes, ih]

/-- A byte more at the end multiplies what came before. -/
theorem ofBytes_concat (bs : List UInt8) (b : UInt8) :
    ofBytes (bs ++ [b]) = ofBytes bs * 2 ^ 8 + b.toNat := by
  simp [ofBytes]

/-- A number of `k` bytes is read back from them. -/
theorem ofBytes_toBytes {k n : Nat} (h : n < (2 ^ 8) ^ k) : ofBytes (toBytes k n) = n := by
  induction k generalizing n with
  | zero =>
      obtain rfl : n = 0 := by simpa using h
      rfl
  | succ k ih =>
      rw [pow_succ] at h
      rw [toBytes, ofBytes_concat, ih (Nat.div_lt_of_lt_mul (by rwa [mul_comm])),
        UInt8.toNat_ofNat']
      omega

/-- As many bytes as there are write no larger number. -/
theorem ofBytes_lt (bs : List UInt8) : ofBytes bs < (2 ^ 8) ^ bs.length := by
  induction bs using List.reverseRecOn with
  | nil => decide
  | append_singleton bs b ih =>
      have hb := b.toNat_lt
      have hpow : (2 ^ 8) ^ (bs.length + 1) = (2 ^ 8) ^ bs.length * 2 ^ 8 := pow_succ _ _
      rw [ofBytes_concat, List.length_append, List.length_singleton, hpow]
      omega

/-! ### Reading, then writing -/

/-- Bytes are written again as they were read, leading zeros included. -/
theorem toBytes_ofBytes (bs : List UInt8) : toBytes bs.length (ofBytes bs) = bs := by
  induction bs using List.reverseRecOn with
  | nil => rfl
  | append_singleton bs b ih =>
      have hb := b.toNat_lt
      have hdiv : (ofBytes bs * 2 ^ 8 + b.toNat) / 2 ^ 8 = ofBytes bs := by omega
      have hlow : UInt8.ofNat (ofBytes bs * 2 ^ 8 + b.toNat) = b := by
        apply UInt8.toNat_inj.mp
        rw [UInt8.toNat_ofNat']
        omega
      rw [ofBytes_concat, List.length_append, List.length_singleton, toBytes, hdiv, hlow, ih]

/-- Assembling an integer is reading its bytes. -/
theorem u16_eq (b₁ b₂ : UInt8) : u16 b₁ b₂ = UInt16.ofNat (ofBytes [b₁, b₂]) := by
  simp [u16, ofBytes]

theorem u32_eq (b₁ b₂ b₃ b₄ : UInt8) :
    u32 b₁ b₂ b₃ b₄ = UInt32.ofNat (ofBytes [b₁, b₂, b₃, b₄]) := by
  have h : ofBytes [b₁, b₂, b₃, b₄] =
      b₁.toNat * 2 ^ 24 + b₂.toNat * 2 ^ 16 + b₃.toNat * 2 ^ 8 + b₄.toNat := by
    simp only [ofBytes, List.foldl_cons, List.foldl_nil]
    omega
  rw [h, u32]

/-- The bytes an integer was assembled from are its bytes. -/
theorem toBytes_u16_of_bytes (b₁ b₂ : UInt8) : toBytes 2 (u16 b₁ b₂).toNat = [b₁, b₂] := by
  have hlt : ofBytes [b₁, b₂] < 2 ^ 16 :=
    lt_of_lt_of_eq (ofBytes_lt _) (by norm_num)
  rw [u16_eq, UInt16.toNat_ofNat', Nat.mod_eq_of_lt hlt]
  exact toBytes_ofBytes [b₁, b₂]

theorem toBytes_u32_of_bytes (b₁ b₂ b₃ b₄ : UInt8) :
    toBytes 4 (u32 b₁ b₂ b₃ b₄).toNat = [b₁, b₂, b₃, b₄] := by
  have hlt : ofBytes [b₁, b₂, b₃, b₄] < 2 ^ 32 :=
    lt_of_lt_of_eq (ofBytes_lt _) (by norm_num)
  rw [u32_eq, UInt32.toNat_ofNat', Nat.mod_eq_of_lt hlt]
  exact toBytes_ofBytes [b₁, b₂, b₃, b₄]

/-! ### Shifts and masks -/

/-- Shifting right by eight and cutting to a byte gives the upper half. -/
theorem toUInt8_shiftRight16 (v : UInt16) : (v >>> 8).toUInt8 = UInt8.ofNat (v.toNat / 2 ^ 8) := by
  apply UInt8.toNat_inj.mp
  simp [UInt16.toNat_shiftRight, Nat.shiftRight_eq_div_pow]

/-- Masking with `0xFF` gives the low byte. -/
theorem toUInt8_mask16 (v : UInt16) : (v &&& 0xFF).toUInt8 = UInt8.ofNat v.toNat := by
  apply UInt8.toNat_inj.mp
  have h : v.toNat % 256 &&& 255 = v.toNat % 256 % 2 ^ 8 := Nat.and_two_pow_sub_one_eq_mod _ 8
  simp [h]

/-- A shift right brings any of the four bytes to the end. -/
theorem toUInt8_shiftRight32 (v k : UInt32) (hk : k.toNat < 32) :
    (v >>> k).toUInt8 = UInt8.ofNat (v.toNat / 2 ^ k.toNat) := by
  apply UInt8.toNat_inj.mp
  simp [UInt32.toNat_shiftRight, Nat.shiftRight_eq_div_pow, Nat.mod_eq_of_lt hk]

theorem toUInt8_mask32 (v : UInt32) : (v &&& 0xFF).toUInt8 = UInt8.ofNat v.toNat := by
  apply UInt8.toNat_inj.mp
  have h : v.toNat % 256 &&& 255 = v.toNat % 256 % 2 ^ 8 := Nat.and_two_pow_sub_one_eq_mod _ 8
  simp [h]

/-- What code does with shifts and masks to write an integer. -/
theorem toBytes_u16 (v : UInt16) :
    toBytes 2 v.toNat = [(v >>> 8).toUInt8, (v &&& 0xFF).toUInt8] := by
  rw [toUInt8_shiftRight16, toUInt8_mask16]
  rfl

theorem toBytes_u32 (v : UInt32) :
    toBytes 4 v.toNat =
      [(v >>> 24).toUInt8, (v >>> 16).toUInt8, (v >>> 8).toUInt8, (v &&& 0xFF).toUInt8] := by
  rw [toUInt8_shiftRight32 v 24 (by decide), toUInt8_shiftRight32 v 16 (by decide),
    toUInt8_shiftRight32 v 8 (by decide), toUInt8_mask32]
  have e24 : (24 : UInt32).toNat = 24 := rfl
  have e16 : (16 : UInt32).toNat = 16 := rfl
  have e8 : (8 : UInt32).toNat = 8 := rfl
  simp only [toBytes, Nat.div_div_eq_div_mul, e24, e16, e8, List.nil_append, List.cons_append]
  norm_num

end BigEndian
