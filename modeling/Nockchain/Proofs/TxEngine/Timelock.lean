import Nockchain.TxEngine.Basic

/-!
# `Nockchain.Proofs.TxEngine.Timelock`: timelock ranges as intervals

A `$timelock-range` reads as an interval of page numbers with optional ends, and
`check:timelock-range` is membership (`check_iff`). `new:timelock-range` drops a bound of `0` on
either side. A minimum of `0` excludes no page, but a maximum of `0` excludes all pages but the
first, so the range that comes back is larger than the one that went in (`within_new`).

`merge:timelock-range` and `fix-absolute:timelock` end in `new:timelock-range`. They compute
intersections as long as the maximum they end up with is not `0`. `merge_check_iff` and
`fixAbsolute_check_iff` say for every pair of ranges and every page whether the answer is the one
of the intersection.
-/

set_option autoImplicit false

namespace Nockchain.TxEngine

namespace TimelockRange

/-- The page is not before the minimum. -/
def Reached (min : Option Nat) (n : Nat) : Prop := ∀ u ∈ min, u ≤ n

/-- The page is not after the maximum. -/
def Within (max : Option Nat) (n : Nat) : Prop := ∀ u ∈ max, n ≤ u

theorem check_iff (r : TimelockRange) (n : Nat) : r.check n ↔ Reached r.min n ∧ Within r.max n := by
  obtain ⟨min, max⟩ := r
  rw [check]
  split_ifs with hunbounded
  · cases hunbounded
    simp [Reached, Within]
  · cases min <;> cases max <;> simp [Reached, Within]

/-- A minimum of `0` excludes nothing. -/
theorem reached_zero (n : Nat) : Reached (some 0) n := fun u hu => by
  rw [Option.mem_some_iff] at hu
  omega

variable {n : Nat}

theorem within_zero_iff : Within (some 0) n ↔ n = 0 := by
  simp [Within]

theorem within_zero (max : Option Nat) : Within max 0 := fun u _ => Nat.zero_le u

theorem new_zero (min : Option Nat) : new min (some 0) = ⟨min, none⟩ := by
  rw [new]
  split <;> rfl

variable {min max : Option Nat}

theorem new_of_ne (hmax : max ≠ some 0) :
    new min max = if min = some 0 then ⟨none, max⟩ else ⟨min, max⟩ := by
  rw [new]
  rw [if_neg]
  split <;> exact hmax

/-- `new:timelock-range` keeps the minimum, but for a minimum of `0`. -/
theorem reached_new : Reached (new min max).min n ↔ Reached min n := by
  by_cases hmax : max = some 0
  · rw [hmax, new_zero]
  rw [new_of_ne hmax]
  split_ifs with hmin
  · rw [hmin]
    exact ⟨fun _ => reached_zero n, fun _ u hu => by cases hu⟩
  · rfl

/-- `new:timelock-range` forgets a maximum of `0`. -/
theorem within_new : Within (new min max).max n ↔ Within max n ∨ max = some 0 := by
  by_cases hmax : max = some 0
  · rw [hmax, new_zero]
    simp [Within]
  · have hkept : (new min max).max = max := by
      rw [new_of_ne hmax]
      split <;> rfl
    simp [hkept, hmax]

theorem new_max_ne_zero (min max : Option Nat) : (new min max).max ≠ some 0 := by
  by_cases hmax : max = some 0
  · rw [hmax, new_zero]
    exact Option.some_ne_none 0 ∘ Eq.symm
  · rw [new_of_ne hmax]
    split <;> exact hmax

/-- There is a bound that `new:timelock-range` keeps. Of two bounds it keeps one. -/
def Bounded (r : TimelockRange) : Prop :=
  (∃ u ∈ r.min, 0 < u) ∨ (∃ u ∈ r.max, 0 < u) ∨ (r.min.isSome ∧ r.max.isSome)

theorem new_ne_unbounded (r : TimelockRange) : new r.min r.max ≠ unbounded ↔ r.Bounded := by
  obtain ⟨min, max⟩ := r
  rcases min with _ | _ | a <;> rcases max with _ | _ | b <;> simp [new, unbounded, Bounded]

variable {a b : Option Nat}

theorem reached_mergeBound : Reached (mergeBound Nat.max a b) n ↔ Reached a n ∧ Reached b n := by
  cases a <;> cases b <;> simp [Reached, mergeBound]

theorem within_mergeBound : Within (mergeBound Nat.min a b) n ↔ Within a n ∧ Within b n := by
  cases a <;> cases b <;> simp [Within, mergeBound]

theorem mergeBound_eq_zero : mergeBound Nat.min a b = some 0 ↔ a = some 0 ∨ b = some 0 := by
  cases a with
  | none => simp [mergeBound]
  | some a =>
    cases b with
    | none => simp [mergeBound]
    | some b =>
      simp only [mergeBound, Option.some.injEq]
      exact Nat.min_eq_zero_iff

/-- Merging drops the maximum: both ranges are bounded, and the maximum of one is `0`. -/
def Drops (a b : TimelockRange) : Prop :=
  a ≠ unbounded ∧ b ≠ unbounded ∧ (a.max = some 0 ∨ b.max = some 0)

theorem check_unbounded (n : Nat) : unbounded.check n := rfl

/-- The pages of a merged range: those of the intersection, and after a maximum that was dropped
all of the pages past the minima. -/
theorem check_merge_iff (a b : TimelockRange) (n : Nat) : (merge a b).check n ↔
      (Reached a.min n ∧ Reached b.min n) ∧ (Within a.max n ∧ Within b.max n ∨ Drops a b) := by
  have hunbounded := (check_iff unbounded n).1 (check_unbounded n)
  rw [merge]
  split
  case isTrue ha =>
    rw [check_iff, ha]
    simp [Drops, hunbounded]
  case isFalse ha =>
    split_ifs with hb
    · rw [check_iff, hb]
      simp [Drops, hunbounded]
    · rw [check_iff, reached_new, within_new, reached_mergeBound, within_mergeBound,
        mergeBound_eq_zero]
      simp [Drops, ha, hb]

/-- Where merging two ranges answers a page wrongly. -/
def Lifted (a b : TimelockRange) (n : Nat) : Prop :=
  Drops a b ∧ 0 < n ∧ Reached a.min n ∧ Reached b.min n

/-- A merged range answers as both do, except where a maximum of zero got lost. -/
theorem merge_check_iff (a b : TimelockRange) (n : Nat) :
    ((merge a b).check n = (a.check n && b.check n)) ↔ ¬ Lifted a b n := by
  have hzero : Drops a b → (Within a.max n ∧ Within b.max n ↔ n = 0) := by
    intro hdrops
    constructor
    · intro hwithin
      rcases hdrops.2.2 with ha | hb
      · exact within_zero_iff.1 (ha ▸ hwithin.1)
      · exact within_zero_iff.1 (hb ▸ hwithin.2)
    · intro hn
      rw [hn]
      exact ⟨within_zero _, within_zero _⟩
  rw [Bool.eq_iff_iff, Bool.and_eq_true, check_merge_iff, check_iff, check_iff, Lifted]
  by_cases hdrops : Drops a b
  · have hn := hzero hdrops
    rw [Nat.pos_iff_ne_zero, Ne]
    tauto
  · tauto

end TimelockRange

namespace Timelock

open TimelockRange

/-- The relative range of a timelock, counted from page `0`. -/
def shifted (relative : TimelockRange) (origin : Nat) : TimelockRange :=
  ⟨relative.min.map (· + origin), relative.max.map (· + origin)⟩

/-- `n` is in the absolute range and `n - origin`, an integer, in the relative one. -/
def Permits (til : Option TimelockIntent) (origin n : Nat) : Prop :=
  ∀ u ∈ til, (Reached u.absolute.min n ∧ Within u.absolute.max n) ∧
    (∀ m ∈ u.relative.min, (m : ℤ) ≤ (n : ℤ) - origin) ∧
    (∀ m ∈ u.relative.max, (n : ℤ) - origin ≤ m)

theorem reached_shifted {relative : TimelockRange} {origin n : Nat} :
    Reached (shifted relative origin).min n ↔ ∀ m ∈ relative.min, (m : ℤ) ≤ (n : ℤ) - origin := by
  cases hmin : relative.min with
  | none => simp [shifted, hmin, Reached]
  | some m =>
    simp only [shifted, hmin, Reached, Option.map_some, Option.mem_some_iff, forall_eq']
    omega

theorem within_shifted {relative : TimelockRange} {origin n : Nat} :
    Within (shifted relative origin).max n ↔ ∀ m ∈ relative.max, (n : ℤ) - origin ≤ m := by
  cases hmax : relative.max with
  | none => simp [shifted, hmax, Within]
  | some m =>
    simp only [shifted, hmax, Within, Option.map_some, Option.mem_some_iff, forall_eq']
    omega

/-- The special case of no relative range makes no difference. -/
theorem fixAbsolute_some (u : TimelockIntent) (origin : Nat) : fixAbsolute (some u) origin
      = merge (new (shifted u.relative origin).min (shifted u.relative origin).max) u.absolute := by
  show merge (if u.relative = unbounded then unbounded else _) u.absolute = _
  split_ifs with hunbounded
  · rw [hunbounded]
    rfl
  · rfl

/-- Where a fixed timelock answers a page wrongly: the page is past the minima, and the maximum
that should have excluded it was `0` and got lost. -/
def Lifted (u : TimelockIntent) (origin n : Nat) : Prop :=
  0 < n ∧ Reached u.absolute.min n ∧ Reached (shifted u.relative origin).min n ∧
    (u.relative.max = some 0 ∧ origin = 0 ∧ Within u.absolute.max n ∨
      u.absolute.max = some 0 ∧ (shifted u.relative origin).Bounded)

/-- An intent made absolute answers every page as it should, except where a maximum of zero got
lost. -/
theorem fixAbsolute_check_iff (til : Option TimelockIntent) (origin n : Nat) :
    ((fixAbsolute til origin).check n ↔ Permits til origin n) ↔ ∀ u ∈ til, ¬ Lifted u origin n := by
  cases til with
  | none => simp [fixAbsolute, Permits, check_unbounded]
  | some u =>
    have hmax : (shifted u.relative origin).max = some 0 ↔
        u.relative.max = some 0 ∧ origin = 0 := by
      simp [shifted]
    have hdrops : Drops (new (shifted u.relative origin).min (shifted u.relative origin).max)
        u.absolute ↔ (shifted u.relative origin).Bounded ∧ u.absolute.max = some 0 := by
      rw [Drops, new_ne_unbounded]
      have hne := new_max_ne_zero (shifted u.relative origin).min (shifted u.relative origin).max
      have hunbounded : u.absolute.max = some 0 → u.absolute ≠ unbounded := by
        intro hzero heq
        rw [heq] at hzero
        cases hzero
      tauto
    rw [fixAbsolute_some, check_merge_iff, reached_new, within_new, hdrops]
    simp only [Permits, Option.mem_some_iff, forall_eq', ← reached_shifted, ← within_shifted]
    rw [Lifted, ← and_assoc (a := u.relative.max = some 0)]
    rcases Nat.eq_zero_or_pos n with hn | hn
    · -- page `0` is within every maximum
      simp [hn, within_zero, and_comm]
    -- On a later page a maximum of zero should exclude, and each of the two may be one.
    have hlost : ¬ Within (some 0) n := mt within_zero_iff.1 hn.ne'
    by_cases hrelative : (shifted u.relative origin).max = some 0
    · by_cases habsolute : u.absolute.max = some 0
      · simp only [hrelative, habsolute, hlost, hn]
        tauto
      · simp only [hrelative, habsolute, hlost, hn]
        tauto
    · by_cases habsolute : u.absolute.max = some 0
      · simp only [hrelative, habsolute, hlost, hn]
        tauto
      · simp only [hrelative, habsolute]
        tauto

end Timelock

open TimelockRange Timelock in
/-- Timelock ranges are intervals but for a maximum of `0`: for every two ranges, every timelock
and origin, and every page, whether the answer is the one of the intersection. -/
theorem timelocks_iff (a b : TimelockRange) (til : Option TimelockIntent) (origin n : Nat) :
    ((merge a b).check n = (a.check n && b.check n) ↔ ¬ TimelockRange.Lifted a b n) ∧
    (((fixAbsolute til origin).check n = true ↔ Permits til origin n) ↔
      ∀ u ∈ til, ¬ Timelock.Lifted u origin n) :=
  ⟨merge_check_iff a b n, fixAbsolute_check_iff til origin n⟩

/-- A note locked to page `0` can be spent on page `5`, if there is another range that ends on
page `9`. -/
theorem not_merge_zero : ¬ ∀ (a b : TimelockRange) (n : Nat),
      (a.merge b).check n = (a.check n && b.check n) := by
  intro h
  exact absurd (h ⟨none, some 0⟩ ⟨none, some 9⟩ 5) (by decide)

end Nockchain.TxEngine
