import Nockchain.Vm.Interpreter
import Nockchain.Vm.Rules

/-!
# `Nockchain.Proofs.Vm.Address`: tree addressing against its rules

The virtual machine walks an axis from the top bit down; the rules for `/`
and `#` recurse on its lowest bit. The theorems:

* `slot_eq_fas`: `slot` computes `/`.
* `edit_eq_hax`: `edit` computes `#`, and panics exactly where the rules for
  `#` crash.

Both rest on `axisBits_step`: halving an axis drops the last bit of its path.
-/

set_option autoImplicit false

namespace Nockchain.Vm

open Noun

/-- The path of an axis is the path of its half, then its lowest bit. -/
theorem axisBits_step {axis : Nat} (h : 2 ≤ axis) :
    axisBits axis = axisBits (axis / 2) ++ [decide (axis % 2 = 1)] := by
  have hlog : Nat.log2 axis = Nat.log2 (axis / 2) + 1 := by
    rw [Nat.log2_def, if_pos h]
  unfold axisBits
  rw [hlog, List.range_succ_eq_map, List.reverse_cons, List.map_append, List.map_singleton,
    ← List.map_reverse, List.map_map]
  congr 1
  · exact List.map_congr_left fun i _ => Nat.testBit_succ axis i
  · rw [Nat.testBit_zero]

@[simp] theorem axisBits_one : axisBits 1 = [] := rfl

/-! ### `/` -/

/-- Following a path and then one more bit. -/
theorem walk_append_singleton (bs : List Bool) (b : Bool) (n : Noun) :
    walk (bs ++ [b]) n = (walk bs n).bind (if b then tailOf else headOf) := by
  induction bs generalizing n with
  | nil =>
    cases n with
    | atom a | cell h t => cases b <;> rfl
  | cons c bs ih =>
    cases n with
    | atom a => rfl
    | cell h t => exact ih (if c then t else h)

/-- `slot` computes `/`. -/
theorem slot_eq_fas (axis : Nat) (n : Noun) : n.slot axis = fas axis n := by
  induction axis using Nat.strongRecOn with
  | ind axis ih =>
    rw [fas]
    by_cases h0 : axis = 0
    · simp [slot, h0]
    by_cases h1 : axis = 1
    · simp [slot, h1, walk]
    -- both sides descend along `axis / 2` and then take one more step
    have hstep : n.slot axis
        = (n.slot (axis / 2)).bind (if axis % 2 = 1 then tailOf else headOf) := by
      have hhalf : axis / 2 ≠ 0 := by omega
      simp only [slot, if_neg h0, if_neg hhalf]
      rw [axisBits_step (by omega), walk_append_singleton]
      simp
    rw [hstep, ih (axis / 2) (by omega), if_neg h0, if_neg h1]
    by_cases hmod : axis % 2 = 0
    · rw [if_pos hmod, if_neg (by omega)]
    · rw [if_neg hmod, if_pos (by omega)]

/-! ### `#` -/

/-- Editing at a path that ends in one more bit: edit one level up, with the
patch joined to the sibling it leaves in place. -/
theorem editAt_append_singleton (patch : Noun) (bs : List Bool) (b : Bool) (n : Noun) :
    editAt patch (bs ++ [b]) n = (walk (bs ++ [!b]) n).bind fun sibling =>
          editAt (if b then .cell sibling patch else .cell patch sibling) bs n := by
  induction bs generalizing n with
  | nil =>
    cases n with
    | atom a | cell h t => cases b <;> rfl
  | cons c bs ih =>
    cases n with
    | atom a => cases c <;> rfl
    | cell h t =>
      cases c with
      | true =>
        show (editAt patch (bs ++ [b]) t).map (Noun.cell h) = _
        rw [ih t, Option.map_bind]
        rfl
      | false =>
        show (editAt patch (bs ++ [b]) h).map (Noun.cell · t) = _
        rw [ih h, Option.map_bind]
        rfl

/-- The sibling of an axis is at the path whose last bit is flipped. -/
theorem fas_sibling {axis : Nat} (h : 2 ≤ axis) (n : Noun) :
    fas (if axis % 2 = 0 then axis + 1 else axis - 1) n
      = walk (axisBits (axis / 2) ++ [!decide (axis % 2 = 1)]) n := by
  rw [← slot_eq_fas]
  by_cases hmod : axis % 2 = 0
  · rw [if_pos hmod]
    have h1 : (axis + 1) / 2 = axis / 2 := by omega
    have h2 : (axis + 1) % 2 = 1 := by omega
    simp [slot, axisBits_step (show 2 ≤ axis + 1 by omega), h1, h2, hmod]
  · rw [if_neg hmod]
    have h1 : (axis - 1) / 2 = axis / 2 := by omega
    have h2 : (axis - 1) % 2 = 0 := by omega
    have h3 : axis % 2 = 1 := by omega
    have h4 : axis - 1 ≠ 0 := by omega
    simp [slot, axisBits_step (show 2 ≤ axis - 1 by omega), h1, h2, h3, h4]

/-- `edit` computes `#`; it panics exactly where `#` crashes. -/
theorem edit_eq_hax (axis : Nat) (patch tree : Noun) :
    edit axis patch tree = hax axis patch tree := by
  induction axis using Nat.strongRecOn generalizing patch with
  | ind axis ih =>
    rw [hax]
    by_cases h0 : axis = 0
    · simp [edit, h0]
    by_cases h1 : axis = 1
    · simp [edit, h1, editAt]
    have h2 : 2 ≤ axis := by omega
    have hhalf : axis / 2 ≠ 0 := by omega
    have hsib := fas_sibling h2 tree
    rw [if_neg h1]
    simp only [edit, if_neg h0]
    rw [axisBits_step h2, editAt_append_singleton, ← hsib]
    by_cases hmod : axis % 2 = 0
    · rw [if_pos hmod, if_pos hmod]
      refine Option.bind_congr fun sibling _ => ?_
      rw [← ih (axis / 2) (by omega), edit, if_neg hhalf, if_neg (by simp [hmod])]
    · rw [if_neg hmod, if_neg hmod]
      refine Option.bind_congr fun sibling _ => ?_
      rw [← ih (axis / 2) (by omega), edit, if_neg hhalf,
        if_pos (by simp only [decide_eq_true_eq]; omega)]

end Nockchain.Vm
