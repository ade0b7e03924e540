import Mathlib

/-!
# `Nockchain.Lib.Bits`: bit strings inside natural numbers

A bit string is stored in a natural number, bit `0` first. This module has the
three operations a bit-packed format is written with, and the rules its proofs
use:

* `cut x i n`: the `n` bits of `x` from position `i`;
* `splice x i n v`: `x` with those bits replaced by the low bits of `v`;
* `firstOne x n`: the position of the lowest set bit among the first `n`;

together with `width`, the number of significant bits. Every rule goes through
`Nat.testBit`: `testBit_cut` and `testBit_splice` say what the operations do to
one bit, and the facts about whole numbers follow by extensionality.
-/

set_option autoImplicit false

namespace Nockchain.Lib

open Nat

/-! ### Reading and writing a range -/

/-- The `n` bits of `x` from position `i`. -/
def cut (x i n : Nat) : Nat := (x >>> i) % 2 ^ n

/-- `x` with the `n` bits from position `i` replaced by the low `n` bits of `v`. -/
def splice (x i n v : Nat) : Nat :=
  (x % 2 ^ i) ||| ((v % 2 ^ n) <<< i) ||| ((x >>> (i + n)) <<< (i + n))

theorem testBit_cut (x i n j : Nat) :
    (cut x i n).testBit j = (decide (j < n) && x.testBit (i + j)) := by
  simp [cut, testBit_mod_two_pow, testBit_shiftRight]

@[simp] theorem cut_zero_length (x i : Nat) : cut x i 0 = 0 := by
  simp [cut, mod_one]

theorem testBit_splice (x i n v j : Nat) : (splice x i n v).testBit j =
      if j < i then x.testBit j else if j < i + n then v.testBit (j - i) else x.testBit j := by
  simp only [splice, testBit_or, testBit_mod_two_pow, testBit_shiftLeft,
    testBit_shiftRight]
  by_cases hlow : j < i
  · have hhigh : ¬ i + n ≤ j := by omega
    have hmid : ¬ i ≤ j := by omega
    simp [hlow, hhigh, hmid]
  have hmid : i ≤ j := by omega
  by_cases hin : j < i + n
  · have hhigh : ¬ i + n ≤ j := by omega
    have hsub : j - i < n := by omega
    simp [hlow, hmid, hin, hhigh, hsub]
  · have hhigh : i + n ≤ j := by omega
    have hsub : ¬ j - i < n := by omega
    simp [hlow, hin, hhigh, hsub]

/-- Two numbers whose bits agree below `m`. -/
def AgreeBelow (m x y : Nat) : Prop := ∀ j, j < m → x.testBit j = y.testBit j

theorem AgreeBelow.refl (m x : Nat) : AgreeBelow m x x := fun _ _ => rfl

variable {x n m i y : Nat}

theorem AgreeBelow.mono {k : Nat} (h : AgreeBelow m x y) (hk : k ≤ m) : AgreeBelow k x y :=
  fun j hj => h j (hj.trans_le hk)

theorem AgreeBelow.trans {z : Nat} (h : AgreeBelow m x y) (h' : AgreeBelow m y z) :
    AgreeBelow m x z :=
  fun j hj => (h j hj).trans (h' j hj)

/-- Writing at or above `m` leaves the bits below `m` alone. -/
theorem agreeBelow_splice {v : Nat} (h : m ≤ i) : AgreeBelow m (splice x i n v) x := by
  intro j hj
  have hlow : j < i := hj.trans_le h
  rw [testBit_splice, if_pos hlow]

/-- What was written is what a later reader of the range finds. -/
theorem cut_of_agreeBelow (h : AgreeBelow m x y) (hin : i + n ≤ m) : cut x i n = cut y i n := by
  apply eq_of_testBit_eq
  intro j
  rw [testBit_cut, testBit_cut]
  by_cases hj : j < n
  · rw [h (i + j) (by omega)]
  · simp [hj]

@[simp] theorem cut_splice_self (x i n v : Nat) : cut (splice x i n v) i n = v % 2 ^ n := by
  apply eq_of_testBit_eq
  intro j
  rw [testBit_cut, testBit_splice]
  by_cases hj : j < n
  · have hlow : ¬ i + j < i := by omega
    have hin : i + j < i + n := by omega
    simp [hlow, hin, hj]
  · simp [hj]

/-- Writing at the end of a bit string extends it. -/
theorem splice_lt {v : Nat} (h : x < 2 ^ i) : splice x i n v < 2 ^ (i + n) := by
  apply lt_pow_two_of_testBit
  intro j hj
  have hlow : ¬ j < i := by omega
  have hin : ¬ j < i + n := by omega
  have hx : x < 2 ^ j := h.trans_le (Nat.pow_le_pow_right (by omega) (by omega))
  rw [testBit_splice, if_neg hlow, if_neg hin]
  exact testBit_lt_two_pow hx

/-- What a write above all the bits leaves. -/
theorem exists_splice (h : x < 2 ^ i) (n v : Nat) : ∃ y, splice x i n v = y ∧ y < 2 ^ (i + n) ∧
    AgreeBelow i y x ∧ cut y i n = v % 2 ^ n :=
  ⟨_, rfl, splice_lt h, agreeBelow_splice le_rfl, cut_splice_self x i n v⟩

/-! ### The number of significant bits -/

/-- The number of significant bits: one more than the position of the highest
set bit, and `0` for `0`. -/
def width (x : Nat) : Nat := if x = 0 then 0 else x.log2 + 1

@[simp] theorem width_zero : width 0 = 0 := rfl

theorem width_pos (h : x ≠ 0) : 0 < width x := by
  simp [width, h]

theorem two_pow_le_of_width (h : x ≠ 0) : 2 ^ (width x - 1) ≤ x := by
  simp only [width, h, if_false, Nat.add_sub_cancel]
  exact log2_self_le h

/-- `width` is the least number of bits that hold `x`. -/
theorem width_le_iff : width x ≤ n ↔ x < 2 ^ n := by
  by_cases hx : x = 0
  · simp [hx]
  · rw [width, if_neg hx, succ_le_iff, log2_lt hx]

theorem lt_two_pow_width (x : Nat) : x < 2 ^ width x := width_le_iff.1 le_rfl

/-- The highest significant bit is set. -/
theorem testBit_width_pred (h : x ≠ 0) : x.testBit (width x - 1) := by
  simp only [width, h, if_false, Nat.add_sub_cancel]
  exact testBit_log2 h

theorem testBit_of_width_le {j : Nat} (h : width x ≤ j) : x.testBit j = false :=
  testBit_lt_two_pow (width_le_iff.mp h)

/-- Reading on past the highest significant bit reads zeros. -/
theorem cut_eq_of_width_le (hx : width x ≤ i + n) (hnm : n ≤ m) : cut x i n = cut x i m := by
  apply eq_of_testBit_eq
  intro j
  rw [testBit_cut, testBit_cut]
  by_cases hj : j < n
  · have hjm : j < m := by omega
    simp [hj, hjm]
  · have hzero : x.testBit (i + j) = false := testBit_of_width_le (by omega)
    simp [hzero]

/-- A number is its low bits and its highest one. -/
theorem mod_add_two_pow_width (h : x ≠ 0) : x % 2 ^ (width x - 1) + 2 ^ (width x - 1) = x := by
  have hle := two_pow_le_of_width h
  have hlt := lt_two_pow_width x
  have hw := width_pos h
  obtain ⟨k, hk⟩ : ∃ k, width x = k + 1 := ⟨width x - 1, by omega⟩
  rw [hk] at hlt hle ⊢
  rw [Nat.add_sub_cancel] at hle ⊢
  have hmod : x % 2 ^ k = x - 2 ^ k := by
    rw [mod_eq_sub_mod hle, mod_eq_of_lt (by omega)]
  omega

/-- The number of values of a 64-bit machine word. -/
def wordLimit : Nat := 2 ^ 64

/-! ### The lowest set bit -/

/-- The position of the lowest set bit among the first `n` bits. -/
def firstOne (x n : Nat) : Option Nat := (List.range n).find? (x.testBit ·)

theorem firstOne_eq_some {c : Nat} :
    firstOne x n = some c ↔ c < n ∧ x.testBit c ∧ ∀ j, j < c → x.testBit j = false := by
  simp only [firstOne, List.find?_range_eq_some, List.mem_range, Bool.not_eq_eq_eq_not,
    Bool.not_true]
  tauto

theorem firstOne_eq_none : firstOne x n = none ↔ ∀ j, j < n → x.testBit j = false := by
  simp [firstOne, List.find?_eq_none]

end Nockchain.Lib
