import Nockchain.TxEngine.Page

/-!
# `Nockchain.Proofs.TxEngine.Page`: where the emission is defined

The rate of emission halves at fixed heights, and then every seven years. It is
zero from 191 years and one block on, counted from the first block after
genesis. `schedule` expects this one block later, and asserts that the rate is
not zero before: it crashes at that one height, and nowhere else
(`emissionCalc_eq_none_iff`). At all others it is what it is for (`soundAt_iff`).
-/

set_option autoImplicit false

namespace Nockchain.TxEngine

open Lib

namespace Schedule

theorem byear_mul_seven : byear * 7 = 368172 := rfl

variable {blockNum rate : Nat}

/-- The loop halves the rate once for every seven years that are over. -/
theorem halve_eq {k : Nat} (hk : blockNum ≤ k) (hpos : blockNum ≠ 0) :
    halve k rate blockNum = rate / 2 ^ ((blockNum - 1) / (byear * 7)) := by
  rw [byear_mul_seven]
  induction k generalizing rate blockNum with
  | zero => exact absurd (Nat.le_zero.1 hk) hpos
  | succ k ih =>
    rw [halve, byear_mul_seven]
    split
    case isTrue hlt =>
      have hcount : (blockNum - 1) / 368172 = (blockNum - 368172 - 1) / 368172 + 1 := by omega
      rw [ih (by omega) (by omega), hcount, Nat.div_div_eq_div_mul, Nat.pow_succ, Nat.mul_comm 2]
    case isFalse hle =>
      have hcount : (blockNum - 1) / 368172 = 0 := by omega
      rw [hcount, Nat.pow_zero, Nat.div_one]

variable {l : List Nat}

/-- A rate that is halved at some of the heights. -/
theorem le_foldl_halve :
    rate / 2 ^ l.length ≤ l.foldl (fun rate s => if s < blockNum then rate / 2 else rate) rate := by
  induction l generalizing rate with
  | nil => simp
  | cons s l ih =>
    rw [List.foldl_cons]
    split
    · rw [List.length_cons, Nat.pow_succ, Nat.mul_comm, ← Nat.div_div_eq_div_mul]
      exact ih
    · refine le_trans ?_ ih
      exact Nat.div_le_div_left (Nat.pow_le_pow_right (by decide) (Nat.le_succ _))
        (Nat.pow_pos (by decide))

/-- A rate that is halved at all of them. -/
theorem foldl_halve_eq (h : ∀ s ∈ l, s < blockNum) :
    l.foldl (fun rate s => if s < blockNum then rate / 2 else rate) rate = rate / 2 ^ l.length := by
  induction l generalizing rate with
  | nil => simp
  | cons s l ih =>
    rw [List.foldl_cons, if_pos (h s (.head _)),
      ih fun s hs => h s (.tail _ hs), List.length_cons, Nat.div_div_eq_div_mul,
      Nat.pow_succ, Nat.mul_comm 2]

/-- A later height halves it no less. -/
theorem foldl_halve_anti {rate' b b' : Nat} (hb : b ≤ b') (hrate : rate' ≤ rate) :
    l.foldl (fun rate s => if s < b' then rate / 2 else rate) rate'
      ≤ l.foldl (fun rate s => if s < b then rate / 2 else rate) rate := by
  induction l generalizing rate rate' with
  | nil => exact hrate
  | cons s l ih =>
    refine ih ?_
    dsimp only
    split_ifs <;> omega

/-- After thirty years the rate is halved every seven. -/
theorem emit_late (h : byear * 30 < blockNum) :
    emit blockNum = 2 ^ 22 / 2 ^ ((blockNum - byear * 30 - 1) / (byear * 7)) := by
  have hlt : ∀ s ∈ steps, s < blockNum := by
    have hle : ∀ s ∈ steps, s ≤ byear * 30 := by decide
    exact fun s hs => (hle s hs).trans_lt h
  rw [emit, foldl_halve_eq hlt, if_pos h, halve_eq (by omega) (by omega)]
  rfl

/-- Before that it has been halved nine times at most. -/
theorem le_emit_early (h : blockNum ≤ byear * 30) : 2 ^ 23 ≤ emit blockNum := by
  rw [emit, if_neg (not_lt.2 h)]
  calc 2 ^ 23 = 2 ^ 16 * 2 ^ 16 / 2 ^ steps.length := by decide
    _ ≤ _ := le_foldl_halve

theorem emit_eq_zero_iff : emit blockNum = 0 ↔ byear * 191 + 1 ≤ blockNum := by
  have hyear : byear = 52596 := rfl
  rcases Nat.lt_or_ge (byear * 30) blockNum with hlate | hearly
  · have hpos : 2 ^ ((blockNum - byear * 30 - 1) / (byear * 7)) ≠ 0 :=
      Nat.pos_iff_ne_zero.1 (Nat.pow_pos (by decide))
    rw [emit_late hlate, Nat.div_eq_zero_iff, or_iff_right hpos,
      Nat.pow_lt_pow_iff_right (by decide), byear_mul_seven]
    omega
  · refine iff_of_false (fun hzero => ?_) (by omega)
    have hle := le_emit_early hearly
    rw [hzero] at hle
    exact absurd hle (by decide)

/-- The rate never rises. -/
theorem emit_anti {b b' : Nat} (h : b ≤ b') : emit b' ≤ emit b := by
  rcases Nat.lt_or_ge (byear * 30) b' with hlate' | hearly'
  · rw [emit_late hlate']
    rcases Nat.lt_or_ge (byear * 30) b with hlate | hearly
    · rw [emit_late hlate]
      refine Nat.div_le_div_left (Nat.pow_le_pow_right (by decide) ?_) (Nat.pow_pos (by decide))
      exact Nat.div_le_div_right (by omega)
    · calc 2 ^ 22 / 2 ^ ((b' - byear * 30 - 1) / (byear * 7)) ≤ 2 ^ 22 := Nat.div_le_self _ _
        _ ≤ 2 ^ 23 := by decide
        _ ≤ emit b := le_emit_early hearly
  · rw [emit, emit, if_neg (not_lt.2 hearly'), if_neg (not_lt.2 (h.trans hearly'))]
    exact foldl_halve_anti h le_rfl

/-- The schedule gives the rate, except at the height where the rate is zero one block early. -/
theorem schedule_eq_some_iff {n v : Nat} : schedule n = some v ↔
    n ≠ byear * 191 + 2 ∧ v = if n = 0 then 0 else emit (n - 1) := by
  unfold schedule
  split
  case isTrue hzero =>
    subst hzero
    exact ⟨fun h => ⟨by decide, (Option.some.inj h).symm⟩, fun h => congrArg some h.2.symm⟩
  case isFalse hpos =>
    have hemit : emit (n - 1) = 0 ↔ byear * 191 + 1 ≤ n - 1 := emit_eq_zero_iff
    dsimp only
    split
    case isTrue hlate =>
      rw [if_pos (hemit.2 (by omega)), hemit.2 (by omega), Option.some_inj]
      exact ⟨fun h => ⟨by omega, h.symm⟩, fun h => h.2.symm⟩
    case isFalse hearly =>
      split
      case isTrue hne =>
        rw [Option.some_inj]
        exact ⟨fun h => ⟨by omega, h.symm⟩, fun h => h.2.symm⟩
      case isFalse hzero =>
        exact iff_of_false nofun fun h => h.1 (by omega)

/-- What the schedule is for, at a block: it has a value there, which no later block exceeds, and
which is positive unless the block is the genesis block or one from the end of the emission on. -/
def SoundAt (n : Nat) : Prop :=
  ∃ v, schedule n = some v ∧ (1 ≤ n → ∀ n' v', n ≤ n' → schedule n' = some v' → v' ≤ v) ∧
    (0 < v ↔ 1 ≤ n ∧ n - 1 < 2 + byear * 191)

/-- The schedule is sound at every block but the last before its zero tail. -/
theorem soundAt_iff (n : Nat) : SoundAt n ↔ n ≠ byear * 191 + 2 := by
  refine ⟨fun ⟨v, hv, _⟩ => (schedule_eq_some_iff.1 hv).1, fun hn => ?_⟩
  refine ⟨_, schedule_eq_some_iff.2 ⟨hn, rfl⟩, fun hpos n' v' hle hv' => ?_, ?_⟩
  · rw [(schedule_eq_some_iff.1 hv').2, if_neg (by omega), if_neg (by omega)]
    exact emit_anti (by omega)
  · rcases Nat.eq_zero_or_pos n with rfl | hpos
    · decide
    · rw [if_neg (by omega), Nat.pos_iff_ne_zero, Ne, emit_eq_zero_iff]
      omega

/-- There the rate is zero already, and the assertion that it is not fails. -/
theorem not_soundAt_last : schedule (byear * 191 + 2) = none ∧ ¬ SoundAt (byear * 191 + 2) := by
  have hnone : schedule (byear * 191 + 2) = none :=
    Option.eq_none_iff_forall_ne_some.2 fun _ hv => (schedule_eq_some_iff.1 hv).1 rfl
  refine ⟨hnone, fun ⟨_, hv, _⟩ => ?_⟩
  cases hv

end Schedule

/-- The emission is defined at every height but one. -/
theorem emissionCalc_eq_none_iff {height : Nat} :
    emissionCalc height = none ↔ height = Schedule.byear * 191 + 2 := by
  rw [Option.eq_none_iff_forall_ne_some]
  constructor
  · intro hnone
    by_contra hne
    exact hnone _ (Schedule.schedule_eq_some_iff.2 ⟨hne, rfl⟩)
  · exact fun heq v hv => (Schedule.schedule_eq_some_iff.1 hv).1 heq

end Nockchain.TxEngine
