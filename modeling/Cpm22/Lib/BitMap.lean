import Mathlib.Data.Nat.Bitwise
import Mathlib.Logic.Function.Iterate

set_option relaxedAutoImplicit false
set_option autoImplicit false

/-!
# Bit maps in bytes

A set of numbers as a table of bytes, the first number in the highest bit of the first byte. A
machine without bit instructions gets at a bit by rotating its byte until the bit is in the lowest
place, and puts a byte back by rotating it as often the other way.

## Main definitions

* `BitMap.bitAt` — a bit of a byte.
* `BitMap.rotl`, `BitMap.rotr` — the rotations of a byte.
* `BitMap.mem` — the number is in the set.
* `BitMap.put` — the table with one bit replaced.

## Main results

* `BitMap.bitAt_rotl_iterate` — the bits of a byte that was rotated several times.
* `BitMap.mem_put` — the set after one bit was replaced.
-/

namespace BitMap

/-! ## Bytes -/

/-- A bit of a byte, counted from the lowest. -/
def bitAt (a : UInt8) (j : ℕ) : Bool := a.toNat.testBit j

/-- **A byte rotated left** by one place. -/
def rotl (a : UInt8) : UInt8 := (a <<< 1) ||| (a >>> 7)

/-- **A byte rotated right** by one place. -/
def rotr (a : UInt8) : UInt8 := (a >>> 1) ||| (a <<< 7)

/-- A byte has no bits behind the eighth. -/
lemma bitAt_of_ge (a : UInt8) {j : ℕ} (hj : 8 ≤ j) : bitAt a j = false := by
  apply Nat.testBit_lt_two_pow
  exact lt_of_lt_of_le a.toNat_lt (Nat.pow_le_pow_right (by omega) hj)

/-- Bytes with the same bits are the same. -/
lemma ext_bitAt {a b : UInt8} (h : ∀ j < 8, bitAt a j = bitAt b j) : a = b := by
  apply UInt8.toNat_inj.mp
  apply Nat.eq_of_testBit_eq
  intro j
  rcases Nat.lt_or_ge j 8 with hj | hj
  · exact h j hj
  · exact (bitAt_of_ge a hj).trans (bitAt_of_ge b hj).symm

/-- The bits after a rotation to the left. -/
lemma bitAt_rotl (a : UInt8) {j : ℕ} (hj : j < 8) : bitAt (rotl a) j = bitAt a ((j + 7) % 8) := by
  have h1 : UInt8.toNat 1 % 8 = 1 := rfl
  have h7 : UInt8.toNat 7 % 8 = 7 := rfl
  simp only [bitAt, rotl, UInt8.toNat_or, UInt8.toNat_shiftLeft, UInt8.toNat_shiftRight,
    Nat.testBit_or, Nat.testBit_mod_two_pow, Nat.testBit_shiftLeft, Nat.testBit_shiftRight, h1, h7]
  rcases Nat.eq_zero_or_pos j with rfl | hpos
  · simp
  · have hmod : (j + 7) % 8 = j - 1 := by omega
    have hhigh : a.toNat.testBit (7 + j) = false := bitAt_of_ge a (by omega)
    have hge : 1 ≤ j := hpos
    simp [hmod, hhigh, hj, hge]

/-- The bits after a rotation to the right. -/
lemma bitAt_rotr (a : UInt8) {j : ℕ} (hj : j < 8) : bitAt (rotr a) j = bitAt a ((j + 1) % 8) := by
  have h1 : UInt8.toNat 1 % 8 = 1 := rfl
  have h7 : UInt8.toNat 7 % 8 = 7 := rfl
  simp only [bitAt, rotr, UInt8.toNat_or, UInt8.toNat_shiftLeft, UInt8.toNat_shiftRight,
    Nat.testBit_or, Nat.testBit_mod_two_pow, Nat.testBit_shiftLeft, Nat.testBit_shiftRight, h1, h7]
  rcases Nat.lt_or_ge j 7 with hlt | hge
  · have hmod : (j + 1) % 8 = 1 + j := by omega
    have hnot : ¬ 7 ≤ j := by omega
    simp [hmod, hnot]
  · obtain rfl : j = 7 := by omega
    have hhigh : a.toNat.testBit (1 + 7) = false := bitAt_of_ge a (by omega)
    simp [hhigh]

/-- **The bits after several rotations to the left.**

**Proof sketch.** Induction on the number of rotations; the places are counted around the byte. -/
lemma bitAt_rotl_iterate (k : ℕ) (a : UInt8) {j : ℕ} (hj : j < 8) :
    bitAt (rotl^[k] a) j = bitAt a ((j + 7 * k) % 8) := by
  induction k generalizing a with
  | zero => simp [Nat.mod_eq_of_lt hj]
  | succ k ih =>
    rw [Function.iterate_succ_apply, ih, bitAt_rotl a (Nat.mod_lt _ (by omega))]
    congr 1
    omega

/-- The bits after several rotations to the right. -/
lemma bitAt_rotr_iterate (k : ℕ) (a : UInt8) {j : ℕ} (hj : j < 8) :
    bitAt (rotr^[k] a) j = bitAt a ((j + k) % 8) := by
  induction k generalizing a with
  | zero => simp [Nat.mod_eq_of_lt hj]
  | succ k ih =>
    rw [Function.iterate_succ_apply, ih, bitAt_rotr a (Nat.mod_lt _ (by omega))]
    congr 1
    omega

/-- The lowest bit cleared and set to `e`. -/
def withLow (a : UInt8) (e : Bool) : UInt8 := (a &&& 0xfe) ||| if e then 1 else 0

/-- The lowest bit is the new one, the others stay. -/
lemma bitAt_withLow (a : UInt8) (e : Bool) {j : ℕ} (hj : j < 8) :
    bitAt (withLow a e) j = if j = 0 then e else bitAt a j := by
  have hfe : ∀ j < 8, Nat.testBit 0xfe j = decide (j ≠ 0) := by decide
  have hone : ∀ j < 8,
      Nat.testBit (UInt8.toNat (if e then 1 else 0)) j = (decide (j = 0) && e) := by
    cases e <;> decide
  have hlow := hone j hj
  have hmask := hfe j hj
  simp only [bitAt, withLow, UInt8.toNat_or, UInt8.toNat_and, Nat.testBit_or, Nat.testBit_and]
  rw [hlow, show UInt8.toNat 0xfe = 0xfe from rfl, hmask]
  rcases Nat.eq_zero_or_pos j with rfl | hpos
  · simp
  · have hne : j ≠ 0 := by omega
    simp [hne]

/-- **With the lowest bit clear, adding one sets it.**

**Proof sketch.** The byte is even, so that adding one is an or with one, and clearing its lowest
bit changes nothing. -/
lemma add_one_eq_withLow {a : UInt8} (h : bitAt a 0 = false) : a + 1 = withLow a true := by
  have heven : a.toNat % 2 = 0 := by
    have hbit : decide (a.toNat % 2 = 1) = false := by
      rw [← Nat.testBit_zero]
      exact h
    have := of_decide_eq_false hbit
    omega
  have hand : a &&& 0xfe = a := by
    have hclear : withLow a false = a &&& 0xfe := UInt8.or_zero
    apply ext_bitAt
    intro j hj
    rw [← hclear, bitAt_withLow a false hj]
    split
    · rename_i hz
      rw [hz, h]
    · rfl
  have hhalf : a.toNat = 2 ^ 1 * (a.toNat / 2) := by omega
  have hlt := a.toNat_lt
  rw [withLow, hand, if_pos rfl, ← UInt8.toNat_inj, UInt8.toNat_add, UInt8.toNat_or,
    show UInt8.toNat 1 = 1 from rfl, hhalf, ← Nat.two_pow_add_eq_or_of_lt (by omega)]
  omega

/-! ## Tables -/

/-- The place of a number in its byte. -/
def place (n : ℕ) : ℕ := 7 - n % 8

/-- **The number is in the set** that the table holds. -/
def mem (v : ℕ → UInt8) (n : ℕ) : Bool := bitAt (v (n / 8)) (place n)

/-- **The table with the bit of a number replaced**: the byte is rotated until the bit is the
lowest, and rotated back. -/
def put (v : ℕ → UInt8) (n : ℕ) (e : Bool) : ℕ → UInt8 :=
  Function.update v (n / 8) (rotr^[n % 8 + 1] (withLow (rotl^[n % 8 + 1] (v (n / 8))) e))

/-- The bit of a number after the rotations. -/
lemma mem_eq_rotl (v : ℕ → UInt8) (n : ℕ) :
    mem v n = bitAt (rotl^[n % 8 + 1] (v (n / 8))) 0 := by
  rw [bitAt_rotl_iterate _ _ (by omega), mem, place]
  congr 1
  omega

/-- The byte with one bit replaced. -/
lemma bitAt_replaced (a : UInt8) (e : Bool) {k j : ℕ} (hk : k < 8) (hj : j < 8) :
    bitAt (rotr^[k + 1] (withLow (rotl^[k + 1] a) e)) j = if j = 7 - k then e else bitAt a j := by
  rw [bitAt_rotr_iterate _ _ hj, bitAt_withLow _ _ (Nat.mod_lt _ (by omega))]
  by_cases h : j = 7 - k
  · rw [if_pos h, if_pos (by omega)]
  · rw [if_neg h, if_neg (by omega), bitAt_rotl_iterate _ _ (Nat.mod_lt _ (by omega))]
    congr 1
    omega

/-- **The set after one bit was replaced**: the number is in it as the bit says, the others as
before. -/
theorem mem_put (v : ℕ → UInt8) (n m : ℕ) (e : Bool) :
    mem (put v n e) m = if m = n then e else mem v m := by
  have hplace : place m < 8 := by
    unfold place
    omega
  rw [mem, put]
  by_cases hbyte : m / 8 = n / 8
  · rw [hbyte, Function.update_self,
      bitAt_replaced _ _ (Nat.mod_lt _ (by omega)) hplace, mem, hbyte]
    unfold place
    by_cases h : m = n
    · rw [if_pos h, if_pos (by omega)]
    · rw [if_neg h, if_neg (by omega)]
  · have h : m ≠ n := by
      rintro rfl
      exact hbyte rfl
    rw [Function.update_of_ne hbyte, if_neg h, mem]

end BitMap
