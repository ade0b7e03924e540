import Nockchain.Serialization.Cue
import Nockchain.Serialization.Jam

/-!
# `Nockchain.Proofs.Serialization.Fields`: the field readers

Both decoders read the fields of the format. `rub_eq` says that `++rub` reads
exactly `field`; `getSize_eq`, `rubAtom_eq` and `rubBackref_eq` say when the
readers of `serialization.rs` do, and what they do instead otherwise.
-/

set_option autoImplicit false

namespace Nockchain.Serialization

open Lib Serialization.Field Nat
open Vm (bailExit bailFail)

/-! ### The field at a position -/

theorem field_eq_none {a pos : Nat} : field a pos = none ↔ ∀ j, pos ≤ j → a.testBit j = false := by
  have hfirst : field a pos = none ↔ firstOne (a >>> pos) (width a - pos) = none := by
    simp only [field]
    split <;> simp_all
  rw [hfirst, firstOne_eq_none]
  simp only [testBit_shiftRight]
  constructor
  · intro h j hj
    by_cases hw : j < width a
    · have hbit := h (j - pos) (by omega)
      rwa [Nat.add_sub_cancel' hj] at hbit
    · exact testBit_of_width_le (by omega)
  · intro h j _
    exact h (pos + j) (by omega)

/-- No field starts past the last one bit. -/
theorem field_eq_none_of_width_le {a pos : Nat} (h : width a ≤ pos) : field a pos = none := by
  rw [field_eq_none]
  intro j hj
  exact testBit_of_width_le (by omega)

/-- The parts of a field, in terms of the number of zeros it starts with. -/
theorem field_eq_some {a pos : Nat} {f : Field} (h : field a pos = some f) :
    firstOne (a >>> pos) (width a - pos) = some f.zeros ∧
      (f.zeros = 0 → f = { zeros := 0, size := 0, value := 0, start := pos + 1 }) ∧
      (f.zeros ≠ 0 → f.size = 2 ^ (f.zeros - 1) + cut a (pos + f.zeros + 1) (f.zeros - 1) ∧
        f.value = cut a f.start f.size ∧ f.start = pos + 2 * f.zeros) := by
  simp only [field] at h
  split at h
  · cases h
  · next hone => cases h; exact ⟨hone, by simp, by simp⟩
  · next k hone => cases h; exact ⟨hone, by simp, by simp [add_assoc]⟩

/-- The one bit that ends the zeros lies inside the number. -/
theorem field_zeros_lt {a pos : Nat} {f : Field} (h : field a pos = some f) :
    pos + f.zeros < width a := by
  have hone := (firstOne_eq_some.mp (field_eq_some h).1).1
  omega

/-- A field is at least one bit long. -/
theorem field_lt_stop {a pos : Nat} {f : Field} (h : field a pos = some f) : pos < f.stop := by
  obtain ⟨-, hzero, hpos⟩ := field_eq_some h
  by_cases hz : f.zeros = 0
  · rw [hzero hz]
    simp [stop]
  · obtain ⟨-, -, hstart⟩ := hpos hz
    rw [stop]
    omega

/-! ### The readers of `serialization.rs` -/

section Readers

variable {a len : Nat} (hlen : width a ≤ len)

include hlen

/-- The bits behind a position have their first one where the shifted number has it. -/
theorem firstOne_restBits (pos : Nat) :
    (restBits pos { bits := a, len }).firstOne = firstOne (a >>> pos) (width a - pos) := by
  -- both searches find the same bit: past `width a` there is none
  have hbit : ∀ c, ((restBits pos { bits := a, len }).firstOne = some c ↔
      firstOne (a >>> pos) (width a - pos) = some c) := by
    intro c
    simp only [BitSlice.firstOne, firstOne_eq_some, testBit_shiftRight, restBits]
    by_cases hpos : len > pos
    · simp only [hpos, if_true, BitSlice.range, testBit_cut]
      constructor
      · rintro ⟨hc, hone, hzero⟩
        simp only [hc, decide_true, Bool.true_and] at hone
        refine ⟨?_, hone, ?_⟩
        · by_contra hge
          rw [testBit_of_width_le (by omega)] at hone
          cases hone
        · intro j hj
          have hlt : j < len - pos := by omega
          simpa [hlt] using hzero j hj
      · rintro ⟨hc, hone, hzero⟩
        have hlt : c < len - pos := by omega
        refine ⟨hlt, by simpa [hlt] using hone, ?_⟩
        intro j hj
        simp [hzero j hj]
    · simp only [hpos, if_false, BitSlice.empty]
      constructor
      · rintro ⟨hc, -, -⟩
        omega
      · rintro ⟨hc, -, -⟩
        omega
  cases hrest : firstOne (a >>> pos) (width a - pos) with
  | some c => exact (hbit c).mpr hrest
  | none =>
    cases hfirst : (restBits pos { bits := a, len }).firstOne with
    | none => rfl
    | some c =>
      have hsome := (hbit c).mp hfirst
      rw [hrest] at hsome
      cases hsome

/-- The bits `next_up_to_n_bits` finds: those of the number, with zeros past the
end of the buffer. -/
theorem nextUpToNBits_eq (pos n : Nat) : nextUpToNBits pos { bits := a, len } n =
      if wordLimit ≤ pos + n then .panic
      else .ok ({ bits := cut a pos n, len := min n (len - pos) }, pos + n) := by
  simp only [nextUpToNBits]
  by_cases hover : wordLimit ≤ pos + n
  · simp [hover]
  simp only [hover, if_false]
  congr 2
  by_cases hfull : len ≥ pos + n
  · have hmin : min n (len - pos) = n := by omega
    simp [hfull, BitSlice.range, hmin]
  by_cases hpart : len > pos
  · have hmin : min n (len - pos) = len - pos := by omega
    have hcut : cut a pos (len - pos) = cut a pos n :=
      cut_eq_of_width_le (by omega) (by omega)
    simp [hfull, hpart, BitSlice.range, hmin, hcut]
  · have hmin : min n (len - pos) = 0 := by omega
    have hcut : cut a pos 0 = cut a pos n := cut_eq_of_width_le (by omega) (by omega)
    simp [hfull, hpart, BitSlice.empty, hmin, ← hcut]

/-- `get_size` reads the size of the field, or panics on a size that does not
fit. -/
theorem getSize_eq (pos : Nat) : getSize pos { bits := a, len } =
      match field a pos with
      | none => .err bailExit
      | some f => if f.sizeOverruns len then .panic else .ok (f.size, f.start) := by
  rw [getSize, firstOne_restBits hlen]
  cases hf : field a pos with
  | none =>
    have hnone : firstOne (a >>> pos) (width a - pos) = none := by
      simp only [field] at hf
      split at hf <;> simp_all
    simp [hnone]
  | some f =>
    obtain ⟨hone, hzero, hpos⟩ := field_eq_some hf
    simp only [hone]
    by_cases hz : f.zeros = 0
    · simp [hzero hz, sizeOverruns]
    obtain ⟨hsize, -, hstart⟩ := hpos hz
    have hnext : pos + (f.zeros + 1) + (f.zeros - 1) = f.start := by omega
    simp only [hz, if_false, nextUpToNBits_eq hlen, hnext, sizeOverruns]
    by_cases hover : wordLimit ≤ f.start
    · simp [hover, hz]
    simp only [hover, if_false, Outcome.bind_ok, copyToWord]
    by_cases hfits : len < f.start
    · have hlt := field_zeros_lt hf
      have hshort : ¬ min (f.zeros - 1) (len - (pos + (f.zeros + 1))) = f.zeros - 1 := by
        omega
      simp [hshort, hfits, hz]
    · have hfull : min (f.zeros - 1) (len - (pos + (f.zeros + 1))) = f.zeros - 1 := by
        omega
      by_cases hwide : 64 < f.zeros
      · by_cases hword : f.zeros - 1 ≤ 64
        · have hshift : 64 ≤ f.zeros - 1 := by omega
          simp [hfull, hword, hshift, hwide, hz]
        · simp [hfull, hword, hwide, hz]
      · have hword : f.zeros - 1 ≤ 64 := by omega
        have hshift : ¬ 64 ≤ f.zeros - 1 := by omega
        rw [hsize]
        simp [hfull, hword, hshift, hwide, hfits, add_comm, add_assoc]

/-- An atom is read as in the format, with zeros behind the end of the buffer. -/
theorem rubAtom_eq (pos : Nat) : rubAtom pos { bits := a, len } =
      match field a pos with
      | none => .err bailExit
      | some f => if f.atomOverruns len then .panic else .ok (f.value, f.stop) := by
  rw [rubAtom, getSize_eq hlen]
  cases hf : field a pos with
  | none => rfl
  | some f =>
    obtain ⟨-, hzero, hpos⟩ := field_eq_some hf
    by_cases hsize : f.sizeOverruns len
    · simp [hsize, atomOverruns]
    · simp only [hsize, Bool.false_eq_true, if_false, Outcome.bind_ok, nextUpToNBits_eq hlen,
        atomOverruns, stop]
      by_cases hover : wordLimit ≤ f.start + f.size
      · simp [hover]
      by_cases hz : f.zeros = 0
      · rw [hzero hz] at hover ⊢
        simp only [add_zero] at hover
        simp [hover]
      obtain ⟨hs, hvalue, -⟩ := hpos hz
      have hsz : f.size ≠ 0 := by
        have := Nat.two_pow_pos (f.zeros - 1)
        omega
      simp [hover, hsz, hvalue]

/-- A back-reference is read as in the format, except that its field must be inside the buffer. -/
theorem rubBackref_eq (pos : Nat) : rubBackref pos { bits := a, len } =
      match field a pos with
      | none => .err bailExit
      | some f =>
        if f.backrefOverruns len then .panic
        else if f.isLong then .err bailFail else .ok (f.value, f.stop) := by
  rw [rubBackref, getSize_eq hlen]
  cases hf : field a pos with
  | none => rfl
  | some f =>
    obtain ⟨-, hzero, hpos⟩ := field_eq_some hf
    by_cases hsize : f.sizeOverruns len
    · simp [hsize, backrefOverruns]
    · simp only [hsize, Bool.false_eq_true, if_false, Outcome.bind_ok, backrefOverruns,
        isLong, stop]
      by_cases hz : f.zeros = 0
      · simp [hzero hz]
      obtain ⟨hs, hvalue, -⟩ := hpos hz
      have hsz : f.size ≠ 0 := by
        have := Nat.two_pow_pos (f.zeros - 1)
        omega
      by_cases hlong : 64 < f.size
      · have hle : ¬ f.size ≤ 64 := by omega
        simp [hsz, hlong, hle]
      have hle : f.size ≤ 64 := by omega
      by_cases hin : f.start + f.size ≤ len
      · have hout : ¬ len < f.start + f.size := by omega
        simp [hsz, hlong, hle, hin, hout, BitSlice.range, copyToWord, hvalue]
      · have hout : len < f.start + f.size := by omega
        simp [hsz, hlong, hle, hin, hout]

end Readers

/-! ### `++rub` -/

namespace Hoon

theorem bex_eq (n : Nat) : bex n = 2 ^ n := by
  induction n with
  | zero => rfl
  | succ n ih => rw [bex, ih, pow_succ, mul_comm]

theorem cut_eq (b c d : Nat) : Hoon.cut b c d = Lib.cut d b c := by
  simp [Hoon.cut, Hoon.end, rsh, bex_eq, Lib.cut, shiftRight_eq_div_pow]

theorem cut_one_eq_zero {b d : Nat} : Hoon.cut b 1 d = 0 ↔ d.testBit b = false := by
  rw [cut_eq, Lib.cut, testBit]
  simp

theorem metLoop_eq (turns b c : Nat) (h : width b ≤ turns) : metLoop turns b c = width b + c := by
  induction turns generalizing b c with
  | zero =>
    have hb : width b = 0 := by omega
    simp [metLoop, hb]
  | succ turns ih =>
    by_cases hb : b = 0
    · simp [metLoop, hb]
    -- halving drops one significant bit
    have hhalf : width b = width (b / 2) + 1 := by
      by_cases hone : b = 1
      · subst hone; rfl
      · have hdiv : b / 2 ≠ 0 := by omega
        simp only [width, hb, hdiv, if_false]
        rw [log2_def b, if_pos (by omega)]
    have hrsh : rsh 1 b = b / 2 := rfl
    rw [metLoop, if_neg hb, hrsh, ih (b / 2) (c + 1) (by omega)]
    omega

theorem met_eq (b : Nat) : met b = width b := by
  have hle : width b ≤ b := width_le_iff.mpr Nat.lt_two_pow_self
  rw [met, metLoop_eq b b 0 hle, add_zero]

/-- The zeros loop stops at the first one bit, if it has enough turns to get
there. -/
theorem rubLoop_eq (a b turns c : Nat) (hzero : ∀ j, j < c → b.testBit (a + j) = false) :
    rubLoop a b turns c = firstOne (b >>> a) (c + turns) := by
  induction turns generalizing c with
  | zero =>
    symm
    rw [rubLoop, firstOne_eq_none]
    intro j hj
    rw [testBit_shiftRight]
    exact hzero j hj
  | succ turns ih =>
    rw [rubLoop]
    by_cases hbit : b.testBit (a + c) = false
    · rw [if_pos (cut_one_eq_zero.mpr hbit), ih (c + 1), add_right_comm c 1 turns]
      · rfl
      · intro j hj
        by_cases hjc : j = c
        · rw [hjc]; exact hbit
        · exact hzero j (by omega)
    · rw [if_neg (fun h => hbit (cut_one_eq_zero.mp h))]
      symm
      rw [firstOne_eq_some]
      simp only [testBit_shiftRight]
      exact ⟨by omega, by simpa using hbit, hzero⟩

/-- Searching past the highest significant bit finds nothing new. -/
theorem firstOne_of_width_le (b a : Nat) :
    firstOne (b >>> a) (width b + 1) = firstOne (b >>> a) (width b - a) := by
  cases hfirst : firstOne (b >>> a) (width b - a) with
  | some c =>
    rw [firstOne_eq_some] at hfirst ⊢
    exact ⟨by omega, hfirst.2⟩
  | none =>
    rw [firstOne_eq_none] at hfirst ⊢
    intro j _
    by_cases hj : j < width b - a
    · exact hfirst j hj
    · rw [testBit_shiftRight]
      exact testBit_of_width_le (by omega)

/-- `++rub` reads the field, whatever it is. -/
theorem rub_eq (pos a : Nat) : rub pos a = (field a pos).map fun f => (f.stop - pos, f.value) := by
  rw [rub, rubLoop_eq _ _ _ 0 (by simp), met_eq, zero_add, firstOne_of_width_le]
  cases hf : field a pos with
  | none =>
    have hnone : firstOne (a >>> pos) (width a - pos) = none := by
      simp only [field] at hf
      split at hf <;> simp_all
    simp [hnone]
  | some f =>
    obtain ⟨hone, hzero, hpos⟩ := field_eq_some hf
    simp only [hone, Option.map_some]
    by_cases hz : f.zeros = 0
    · simp [hzero hz, stop]
    obtain ⟨hsize, hvalue, hstart⟩ := hpos hz
    have he : bex (f.zeros - 1) + Hoon.cut (pos + (f.zeros + 1)) (f.zeros - 1) a = f.size := by
      rw [bex_eq, cut_eq, hsize, add_assoc pos]
    have hd : pos + (f.zeros + 1) + (f.zeros - 1) = f.start := by omega
    have hstop : f.zeros + f.zeros + f.size = f.stop - pos := by
      rw [stop]
      omega
    simp only [hz, if_false, he, hd]
    rw [cut_eq, ← hvalue, hstop]

end Hoon

end Nockchain.Serialization
