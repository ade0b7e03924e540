import Nockchain.Lib.Treap

/-!
# `Nockchain.Lib.TreapAlgebra`: difference, union and intersection of treaps

The three operations on whole treaps. `dif` recurses on the tree it subtracts;
`uni` and `int` descend two trees at once and rebuild one of them on the way, so
their recursion is bounded by a number of turns. `uni_spec` and `int_spec` say
that the bound is enough and what is left: with `Apt.ext` this determines the
result.
-/

set_option autoImplicit false

namespace Nockchain.Lib.Tree

open TreapOrder

variable {α κ : Type} [TreapOrder κ] [DecidableEq κ]

variable {a b : Tree α}

section Keyed

variable (key : α → κ)

/-! ### Splitting and difference -/

/-- Split a treap at a key: the entries before it, and those after. -/
def bifAt (b : κ) : Tree α → Tree α × Tree α
  | nil => (nil, nil)
  | node n l r =>
    if b = key n then (l, r)
    else if gor b (key n) then ((bifAt b l).1, node n (bifAt b l).2 r)
    else (node n l (bifAt b r).1, (bifAt b r).2)

/-- The entries of `a` whose key is not a key of the second treap. -/
def dif (a : Tree α) : Tree α → Tree α
  | nil => a
  | node n l r => join key (dif (bifAt key (key n) a).1 l) (dif (bifAt key (key n) a).2 r)

variable {key}

theorem Apt.bifAt_spec {t : Tree α} (ht : Apt key t) (b : κ) :
    Apt key (bifAt key b t).1 ∧ Apt key (bifAt key b t).2 ∧
      (∀ x, x ∈ (bifAt key b t).1 ↔ x ∈ t ∧ Before (key x) b) ∧
      (∀ x, x ∈ (bifAt key b t).2 ↔ x ∈ t ∧ Before b (key x)) := by
  induction t with
  | nil => simp [bifAt]
  | node n l r ihl ihr =>
    have ⟨hl, hr, hal, har⟩ := ht
    by_cases hb : b = key n
    · subst hb
      simp only [bifAt, if_true]
      exact ⟨hal, har, ht.mem_left, ht.mem_right⟩
    by_cases hg : gor b (key n)
    · obtain ⟨ha, hc, hlow, hhigh⟩ := ihl hal
      have hbn : Before b (key n) := before_of_gor hg hb
      simp only [bifAt, hb, hg, if_true, if_false]
      refine ⟨ha, ⟨fun x hx => hl x ((hhigh x).1 hx).1, hr, hc, har⟩, fun x => ?_, fun x => ?_⟩
      · -- What is before `b` is before `n`, so it is on the left.
        rw [hlow, ht.mem_left]
        exact ⟨fun ⟨hx, hxb⟩ => ⟨hx.1, hxb⟩, fun ⟨hx, hxb⟩ => ⟨⟨hx, hxb.trans hbn⟩, hxb⟩⟩
      · have hright : ∀ x ∈ r, Before b (key x) := fun x hx => hbn.trans (hr x hx).1
        rw [mem_node, mem_node]
        grind
    · obtain ⟨ha, hc, hlow, hhigh⟩ := ihr har
      have hnb : Before (key n) b := before_of_not_gor hg hb
      simp only [bifAt, hb, hg, if_false, Bool.false_eq_true]
      refine ⟨⟨hl, fun x hx => hr x ((hlow x).1 hx).1, hal, ha⟩, hc, fun x => ?_, fun x => ?_⟩
      · have hleft : ∀ x ∈ l, Before (key x) b := fun x hx => (hl x hx).1.trans hnb
        rw [mem_node, mem_node]
        grind
      · rw [hhigh, ht.mem_right]
        exact ⟨fun ⟨hx, hbx⟩ => ⟨hx.1, hbx⟩, fun ⟨hx, hbx⟩ => ⟨⟨hx, hnb.trans hbx⟩, hbx⟩⟩

theorem Apt.dif_spec (ha : Apt key a) (hb : Apt key b) :
    Apt key (dif key a b) ∧ ∀ x, x ∈ dif key a b ↔ x ∈ a ∧ ∀ y ∈ b, key y ≠ key x := by
  induction b generalizing a with
  | nil => exact ⟨ha, fun x => by simp [dif]⟩
  | node n l r ihl ihr =>
    obtain ⟨ha1, ha2, hlow, hhigh⟩ := ha.bifAt_spec (key n)
    obtain ⟨hd, hdmem⟩ := ihl ha1 hb.2.2.1
    obtain ⟨he, hemem⟩ := ihr ha2 hb.2.2.2
    have hsides : ∀ x ∈ dif key (bifAt key (key n) a).1 l,
        ∀ y ∈ dif key (bifAt key (key n) a).2 r, Before (key x) (key y) := by
      intro x hx y hy
      have hxn := ((hlow x).1 ((hdmem x).1 hx).1).2
      have hny := ((hhigh y).1 ((hemem y).1 hy).1).2
      exact hxn.trans hny
    obtain ⟨hj, hjmem⟩ := hd.join_spec he hsides
    refine ⟨hj, fun x => ?_⟩
    simp only [dif, hjmem, hdmem, hemem, hlow, hhigh]
    constructor
    · rintro (⟨⟨hx, hxn⟩, hne⟩ | ⟨⟨hx, hnx⟩, hne⟩)
      · refine ⟨hx, fun y hy => ?_⟩
        rcases (mem_node y n l r).1 hy with rfl | hy | hy
        · exact hxn.2.symm
        · exact hne y hy
        · exact (hxn.trans (hb.2.1 y hy).1).2.symm
      · refine ⟨hx, fun y hy => ?_⟩
        rcases (mem_node y n l r).1 hy with rfl | hy | hy
        · exact hnx.2
        · exact ((hb.1 y hy).1.trans hnx).2
        · exact hne y hy
    · rintro ⟨hx, hne⟩
      have hxn : key n ≠ key x := hne n (by simp)
      by_cases hg : gor (key x) (key n)
      · exact .inl ⟨⟨hx, before_of_gor hg hxn.symm⟩, fun y hy => hne y (by simp [hy])⟩
      · exact .inr ⟨⟨hx, before_of_not_gor hg hxn.symm⟩, fun y hy => hne y (by simp [hy])⟩

end Keyed

/-! ### Union -/

section Union

variable (key : α → κ)

/-- `uni`, in a bounded number of turns. -/
def uniTurns : Nat → Tree α → Tree α → Tree α
  | 0, a, _ => a
  | _ + 1, a, nil => a
  | _ + 1, nil, b => b
  | k + 1, node n la ra, node m lb rb =>
    if key m = key n then node m (uniTurns k la lb) (uniTurns k ra rb)
    else if mor (key n) (key m) then
      if gor (key m) (key n) then uniTurns k (node n (uniTurns k la (node m lb nil)) ra) rb
      else uniTurns k (node n la (uniTurns k ra (node m nil rb))) lb
    else if gor (key n) (key m) then uniTurns k ra (node m (uniTurns k (node n la nil) lb) rb)
    else uniTurns k la (node m lb (uniTurns k (node n nil ra) rb))

/-- The union of two treaps; where both have a key, the entry of the second one. -/
def uni (a b : Tree α) : Tree α := uniTurns key ((a.size + b.size + 1) ^ 2) a b

/-- `c` is the union of `a` and `b`, with the entries of `b` before those of `a`. -/
def IsUnion (a b c : Tree α) : Prop :=
  Apt key c ∧ ∀ x, x ∈ c ↔ x ∈ b ∨ x ∈ a ∧ ∀ y ∈ b, key y ≠ key x

/-- The size of the tree whose root is lower in the heap order, when both trees have one. -/
def lower : Tree α → Tree α → Nat
  | node n la ra, node m lb rb =>
    if mor (key n) (key m) then (node m lb rb).size else (node n la ra).size
  | _, _ => 0

/-- The turns that `uniTurns` needs. Each stage shrinks the two trees together, or keeps their
size and shrinks the one whose root is lower. -/
def uniNeed (a b : Tree α) : Nat :=
  (a.size + b.size) * (a.size + b.size + 1) + lower key a b

variable {key}

section Stages

variable {n m : α} {la ra lb rb c d : Tree α}

omit [DecidableEq κ]

theorem lower_le (a b : Tree α) : lower key a b ≤ a.size + b.size := by
  unfold lower
  split
  · split <;> omega
  · omega

theorem uniNeed_lt_of_size {a' b' : Tree α} (h : a'.size + b'.size < a.size + b.size) :
    uniNeed key a' b' < uniNeed key a b := by
  have hl : lower key a' b' ≤ a'.size + b'.size := lower_le a' b'
  have hm : (a'.size + b'.size + 1) * (a'.size + b'.size + 1 + 1) ≤
      (a.size + b.size) * (a.size + b.size + 1) :=
    Nat.mul_le_mul h (Nat.succ_le_succ h)
  have hr : (a'.size + b'.size + 1) * (a'.size + b'.size + 1 + 1) =
      (a'.size + b'.size) * (a'.size + b'.size + 1) + 2 * (a'.size + b'.size + 1) := by ring
  unfold uniNeed
  omega

theorem uniNeed_lt_of_lower {a' b' : Tree α} (h : a'.size + b'.size ≤ a.size + b.size)
    (hl : lower key a' b' < lower key a b) : uniNeed key a' b' < uniNeed key a b := by
  have hm : (a'.size + b'.size) * (a'.size + b'.size + 1) ≤
      (a.size + b.size) * (a.size + b.size + 1) :=
    Nat.mul_le_mul h (Nat.succ_le_succ h)
  unfold uniNeed
  omega

/-- Descending from the second tree, when its root is the lower one. -/
theorem lower_lt_right {e : Tree α} (hnm : Above (key n) (key m))
    (hb : ∀ x ∈ c, Above (key m) (key x)) (hc : c.size < (node m lb rb).size) :
    lower key (node n d e) c < lower key (node n la ra) (node m lb rb) := by
  have hmor : mor (key n) (key m) := hnm.1
  cases c with
  | nil => simp [lower, hmor]
  | node x lx rx =>
    have hx : mor (key n) (key x) := (hnm.trans (hb x (by simp))).1
    simpa [lower, hmor, hx] using hc

/-- Descending from the first tree, when its root is the lower one. -/
theorem lower_lt_left {e : Tree α} (hmn : Above (key m) (key n))
    (ha : ∀ x ∈ c, Above (key n) (key x)) (hc : c.size < (node n la ra).size) :
    lower key c (node m d e) < lower key (node n la ra) (node m lb rb) := by
  have not_mor : ∀ x, Above (key m) (key x) → mor (key x) (key m) = false := by
    intro x hx
    by_contra h
    exact hx.2 (mor_antisymm _ _ hx.1 (by simpa using h))
  cases c with
  | nil => simp [lower, not_mor n hmn]
  | node x lx rx =>
    have hx := not_mor x (hmn.trans (ha x (by simp)))
    simpa [lower, not_mor n hmn, hx] using hc

theorem Apt.left_part (h : Apt key (node n la ra)) : Apt key (node n la nil) :=
  ⟨h.1, by simp, h.2.2.1, trivial⟩

theorem Apt.right_part (h : Apt key (node n la ra)) : Apt key (node n nil ra) :=
  ⟨by simp, h.2.1, trivial, h.2.2.2⟩

theorem mem_left_part (x n : α) (l : Tree α) : x ∈ node n l nil ↔ x = n ∨ x ∈ l := by simp

theorem mem_right_part (x n : α) (r : Tree α) : x ∈ node n nil r ↔ x = n ∨ x ∈ r := by simp

variable (ha : Apt key (node n la ra)) (hb : Apt key (node m lb rb))

include ha hb

/-- The second tree's root is lower, and before: its left part goes under the first's left. -/
theorem isUnion_right_before (hnm : Above (key n) (key m)) (hmn : Before (key m) (key n))
    (hd : IsUnion key la (node m lb nil) d)
    (hc : Apt key (node n d ra) → IsUnion key (node n d ra) rb c) :
    IsUnion key (node n la ra) (node m lb rb) c := by
  have hside : ∀ y ∈ node m lb nil, Before (key y) (key n) ∧ Above (key n) (key y) := by
    grind [Apt, mem_node, not_mem_nil, Before.trans, Above.trans]
  obtain ⟨hapt, hcmem⟩ := hc (by grind [Apt, IsUnion])
  refine ⟨hapt, fun x => ?_⟩
  -- which part has the key of `x` is decided by the order
  grind [Apt, IsUnion, mem_node, not_mem_nil, Before, Before.trans]

/-- The second tree's root is lower, and after: its right part goes under the first's right. -/
theorem isUnion_right_after (hnm : Above (key n) (key m)) (hmn : Before (key n) (key m))
    (hd : IsUnion key ra (node m nil rb) d)
    (hc : Apt key (node n la d) → IsUnion key (node n la d) lb c) :
    IsUnion key (node n la ra) (node m lb rb) c := by
  have hside : ∀ y ∈ node m nil rb, Before (key n) (key y) ∧ Above (key n) (key y) := by
    grind [Apt, mem_node, not_mem_nil, Before.trans, Above.trans]
  obtain ⟨hapt, hcmem⟩ := hc (by grind [Apt, IsUnion])
  refine ⟨hapt, fun x => ?_⟩
  -- which part has the key of `x` is decided by the order
  grind [Apt, IsUnion, mem_node, not_mem_nil, Before, Before.trans]

/-- The first tree's root is lower, and before: its left part goes under the second's left. -/
theorem isUnion_left_before (hmn : Above (key m) (key n)) (hnm : Before (key n) (key m))
    (hd : IsUnion key (node n la nil) lb d)
    (hc : Apt key (node m d rb) → IsUnion key ra (node m d rb) c) :
    IsUnion key (node n la ra) (node m lb rb) c := by
  have hside : ∀ y ∈ node n la nil, Before (key y) (key m) ∧ Above (key m) (key y) := by
    grind [Apt, mem_node, not_mem_nil, Before.trans, Above.trans]
  obtain ⟨hapt, hcmem⟩ := hc (by grind [Apt, IsUnion])
  refine ⟨hapt, fun x => ?_⟩
  -- which part has the key of `x` is decided by the order
  grind [Apt, IsUnion, mem_node, not_mem_nil, Before, Before.trans]

/-- The first tree's root is lower, and after: its right part goes under the second's right. -/
theorem isUnion_left_after (hmn : Above (key m) (key n)) (hnm : Before (key m) (key n))
    (hd : IsUnion key (node n nil ra) rb d)
    (hc : Apt key (node m lb d) → IsUnion key la (node m lb d) c) :
    IsUnion key (node n la ra) (node m lb rb) c := by
  have hside : ∀ y ∈ node n nil ra, Before (key m) (key y) ∧ Above (key m) (key y) := by
    grind [Apt, mem_node, not_mem_nil, Before.trans, Above.trans]
  obtain ⟨hapt, hcmem⟩ := hc (by grind [Apt, IsUnion])
  refine ⟨hapt, fun x => ?_⟩
  -- which part has the key of `x` is decided by the order
  grind [Apt, IsUnion, mem_node, not_mem_nil, Before, Before.trans]

end Stages

variable (key) in
theorem size_uniTurns_le (k : Nat) (a b : Tree α) :
    (uniTurns key k a b).size ≤ a.size + b.size := by
  induction k generalizing a b with
  | zero => simp [uniTurns]
  | succ k ih =>
    cases b with
    | nil => simp [uniTurns]
    | node m lb rb =>
      cases a with
      | nil => simp [uniTurns]
      | node n la ra =>
        simp only [uniTurns]
        split
        · have h1 := ih la lb
          have h2 := ih ra rb
          simp only [size_node]
          omega
        split
        · split
          · have h1 := ih la (node m lb nil)
            have h2 := ih (node n (uniTurns key k la (node m lb nil)) ra) rb
            simp only [size_node, size_nil] at *
            omega
          · have h1 := ih ra (node m nil rb)
            have h2 := ih (node n la (uniTurns key k ra (node m nil rb))) lb
            simp only [size_node, size_nil] at *
            omega
        · split
          · have h1 := ih (node n la nil) lb
            have h2 := ih ra (node m (uniTurns key k (node n la nil) lb) rb)
            simp only [size_node, size_nil] at *
            omega
          · have h1 := ih (node n nil ra) rb
            have h2 := ih la (node m lb (uniTurns key k (node n nil ra) rb))
            simp only [size_node, size_nil] at *
            omega

/-- The four ways in which the roots of two treaps can differ, each with the two stages in which
the union is then taken. -/
theorem isUnion_turn {k : Nat} {n m : α} {la ra lb rb : Tree α}
    (ha : Apt key (node n la ra)) (hb : Apt key (node m lb rb)) (ih : ∀ a b, Apt key a → Apt key b →
      uniNeed key a b < uniNeed key (node n la ra) (node m lb rb) →
      IsUnion key a b (uniTurns key k a b)) : IsUnion key (node n la ra) (node m lb rb)
      (uniTurns key (k + 1) (node n la ra) (node m lb rb)) := by
  simp only [uniTurns]
  split
  case isTrue hk =>
    obtain ⟨hl, hlmem⟩ := ih la lb ha.2.2.1 hb.2.2.1
      (uniNeed_lt_of_size (by simp only [size_node]; omega))
    obtain ⟨hr, hrmem⟩ := ih ra rb ha.2.2.2 hb.2.2.2
      (uniNeed_lt_of_size (by simp only [size_node]; omega))
    refine ⟨⟨?_, ?_, hl, hr⟩, ?_⟩
    · intro x hx
      rcases (hlmem x).1 hx with hx | ⟨hx, -⟩
      · exact hb.1 x hx
      · rw [hk]
        exact ha.1 x hx
    · intro x hx
      rcases (hrmem x).1 hx with hx | ⟨hx, -⟩
      · exact hb.2.1 x hx
      · rw [hk]
        exact ha.2.1 x hx
    · have hleft : ∀ x ∈ la, ∀ y ∈ rb, key y ≠ key x := fun x hx y hy =>
        ((hk ▸ (ha.1 x hx).1 : Before (key x) (key m)).trans (hb.2.1 y hy).1).2.symm
      have hright : ∀ x ∈ ra, ∀ y ∈ lb, key y ≠ key x := fun x hx y hy =>
        ((hb.1 y hy).1.trans (hk ▸ (ha.2.1 x hx).1)).2
      have hla : ∀ x ∈ la, key m ≠ key x := fun x hx => hk ▸ (ha.1 x hx).1.2.symm
      have hra : ∀ x ∈ ra, key m ≠ key x := fun x hx => hk ▸ (ha.2.1 x hx).1.2
      intro x
      simp only [mem_node, hlmem, hrmem]
      grind
  case isFalse hk =>
    have hne : key n ≠ key m := fun h => hk h.symm
    split
    · rename_i hmor
      have hnm : Above (key n) (key m) := above_of_mor hmor hne
      split
      · rename_i hg
        apply isUnion_right_before ha hb hnm (before_of_gor hg hk)
          (ih _ _ ha.2.2.1 hb.left_part (uniNeed_lt_of_size (by simp; omega)))
        intro hapt
        apply ih _ _ hapt hb.2.2.2
        have hsize := size_uniTurns_le key k la (node m lb nil)
        simp only [size_node, size_nil] at hsize
        exact uniNeed_lt_of_lower (by simp only [size_node]; omega)
          (lower_lt_right hnm (fun x hx => (hb.2.1 x hx).2) (by simp only [size_node]; omega))
      · rename_i hg
        apply isUnion_right_after ha hb hnm (before_of_not_gor hg hk)
          (ih _ _ ha.2.2.2 hb.right_part (uniNeed_lt_of_size (by simp; omega)))
        intro hapt
        apply ih _ _ hapt hb.2.2.1
        have hsize := size_uniTurns_le key k ra (node m nil rb)
        simp only [size_node, size_nil] at hsize
        exact uniNeed_lt_of_lower (by simp only [size_node]; omega)
          (lower_lt_right hnm (fun x hx => (hb.1 x hx).2) (by simp only [size_node]; omega))
    · rename_i hmor
      have hmn : Above (key m) (key n) := above_of_not_mor hmor hne
      split
      · rename_i hg
        apply isUnion_left_before ha hb hmn (before_of_gor hg hne)
          (ih _ _ ha.left_part hb.2.2.1 (uniNeed_lt_of_size (by simp; omega)))
        intro hapt
        apply ih _ _ ha.2.2.2 hapt
        have hsize := size_uniTurns_le key k (node n la nil) lb
        simp only [size_node, size_nil] at hsize
        exact uniNeed_lt_of_lower (by simp only [size_node]; omega)
          (lower_lt_left hmn (fun x hx => (ha.2.1 x hx).2) (by simp only [size_node]; omega))
      · rename_i hg
        apply isUnion_left_after ha hb hmn (before_of_not_gor hg hne)
          (ih _ _ ha.right_part hb.2.2.2 (uniNeed_lt_of_size (by simp; omega)))
        intro hapt
        apply ih _ _ ha.2.2.1 hapt
        have hsize := size_uniTurns_le key k (node n nil ra) rb
        simp only [size_node, size_nil] at hsize
        exact uniNeed_lt_of_lower (by simp only [size_node]; omega)
          (lower_lt_left hmn (fun x hx => (ha.1 x hx).2) (by simp only [size_node]; omega))

theorem isUnion_turns {k : Nat} (ha : Apt key a) (hb : Apt key b)
    (hk : uniNeed key a b < k) : IsUnion key a b (uniTurns key k a b) := by
  induction k generalizing a b with
  | zero => omega
  | succ k ih =>
    cases b with
    | nil => exact ⟨by simpa [uniTurns] using ha, by simp [uniTurns]⟩
    | node m lb rb =>
      cases a with
      | nil => exact ⟨by simpa [uniTurns] using hb, by simp [uniTurns]⟩
      | node n la ra =>
        apply isUnion_turn ha hb
        intro a' b' ha' hb' hlt
        exact ih ha' hb' (by omega)

theorem Apt.uni_spec (ha : Apt key a) (hb : Apt key b) : Apt key (uni key a b) ∧
      ∀ x, x ∈ uni key a b ↔ x ∈ b ∨ x ∈ a ∧ ∀ y ∈ b, key y ≠ key x := by
  apply isUnion_turns ha hb
  have hl : lower key a b ≤ a.size + b.size := lower_le a b
  have hsq : (a.size + b.size + 1) ^ 2 =
      (a.size + b.size) * (a.size + b.size + 1) + (a.size + b.size) + 1 := by ring
  unfold uniNeed
  omega

end Union

/-! ### Intersection of sets -/

section Intersection

/-- `int`, in a bounded number of turns. The trees change places when the second root is higher. -/
def intTurns : Nat → Tree κ → Tree κ → Tree κ
  | 0, _, _ => nil
  | _ + 1, _, nil => nil
  | _ + 1, nil, _ => nil
  | k + 1, node n la ra, node m lb rb =>
    if !mor n m then intTurns k (node m lb rb) (node n la ra)
    else if m = n then node n (intTurns k la lb) (intTurns k ra rb)
    else if gor m n then
      uni id (intTurns k la (node m lb nil)) (intTurns k (node n la ra) rb)
    else uni id (intTurns k ra (node m nil rb)) (intTurns k (node n la ra) lb)

/-- The elements that two sets share. -/
def int (a b : Tree κ) : Tree κ := intTurns (2 * (a.size + b.size) + 2) a b

/-- One turn more, when the trees have to change places first. -/
def intNeed (a b : Tree κ) : Nat :=
  2 * (a.size + b.size) +
    match a, b with
    | node n _ _, node m _ _ => if mor n m then 0 else 1
    | _, _ => 0

omit [DecidableEq κ] in
theorem intNeed_lt {a b a' b' : Tree κ} (h : a'.size + b'.size < a.size + b.size) :
    intNeed a' b' < intNeed a b := by
  have hone : ∀ s t : Tree κ, intNeed s t ≤ 2 * (s.size + t.size) + 1 := by
    intro s t
    unfold intNeed
    split
    · split <;> omega
    · omega
  have hlow : 2 * (a.size + b.size) ≤ intNeed a b := by
    unfold intNeed
    omega
  have := hone a' b'
  omega

theorem Apt.mem_uni {a b : Tree κ} (ha : Apt id a) (hb : Apt id b) (x : κ) :
    x ∈ uni id a b ↔ x ∈ a ∨ x ∈ b := by
  rw [(ha.uni_spec hb).2]
  grind

theorem int_turns {k : Nat} {a b : Tree κ} (ha : Apt id a) (hb : Apt id b) (hk : intNeed a b < k) :
    Apt id (intTurns k a b) ∧ ∀ x, x ∈ intTurns k a b ↔ x ∈ a ∧ x ∈ b := by
  induction k generalizing a b with
  | zero => omega
  | succ k ih =>
    cases b with
    | nil => simp [intTurns]
    | node m lb rb =>
      cases a with
      | nil => simp [intTurns]
      | node n la ra =>
        have hih : ∀ a' b' : Tree κ, Apt id a' → Apt id b' →
            a'.size + b'.size < (node n la ra).size + (node m lb rb).size →
            Apt id (intTurns k a' b') ∧ ∀ x, x ∈ intTurns k a' b' ↔ x ∈ a' ∧ x ∈ b' := by
          intro a' b' ha' hb' hs
          have hlt := intNeed_lt hs
          exact ih ha' hb' (by omega)
        simp only [intTurns]
        by_cases hmor : mor n m
        swap
        · -- The roots change places, after which the first one is the higher.
          have hmn : mor m n := mor_of_not hmor
          obtain ⟨h, hmem⟩ := ih hb ha (by
            simp only [intNeed, hmor, hmn, if_true, Bool.false_eq_true, if_false] at hk ⊢
            omega)
          simp only [hmor, Bool.not_false, if_true]
          exact ⟨h, fun x => (hmem x).trans And.comm⟩
        simp only [hmor, Bool.not_true, Bool.false_eq_true, if_false]
        by_cases heq : m = n
        · subst heq
          obtain ⟨hl, hlmem⟩ := hih la lb ha.2.2.1 hb.2.2.1 (by simp only [size_node]; omega)
          obtain ⟨hr, hrmem⟩ := hih ra rb ha.2.2.2 hb.2.2.2 (by simp only [size_node]; omega)
          simp only [if_true]
          refine ⟨⟨fun x hx => ha.1 x ((hlmem x).1 hx).1, fun x hx => ha.2.1 x ((hrmem x).1 hx).1,
            hl, hr⟩, fun x => ?_⟩
          rw [mem_node, hlmem, hrmem, ha.mem_left, hb.mem_left, ha.mem_right, hb.mem_right]
          constructor
          · rintro (rfl | ⟨⟨hx, -⟩, hy, -⟩ | ⟨⟨hx, -⟩, hy, -⟩)
            · simp
            · exact ⟨hx, hy⟩
            · exact ⟨hx, hy⟩
          · rintro ⟨hx, hy⟩
            by_cases hxm : x = m
            · exact .inl hxm
            by_cases hg : gor x m
            · exact .inr (.inl ⟨⟨hx, before_of_gor hg hxm⟩, hy, before_of_gor hg hxm⟩)
            · exact .inr (.inr ⟨⟨hx, before_of_not_gor hg hxm⟩, hy,
                before_of_not_gor hg hxm⟩)
        simp only [heq, if_false]
        by_cases hg : gor m n
        · have hbefore : Before m n := before_of_gor hg heq
          obtain ⟨h1, hmem1⟩ := hih la (node m lb nil) ha.2.2.1 hb.left_part
            (by simp only [size_node, size_nil]; omega)
          obtain ⟨h2, hmem2⟩ := hih (node n la ra) rb ha hb.2.2.2 (by simp only [size_node]; omega)
          simp only [hg, if_true]
          refine ⟨(h1.uni_spec h2).1, fun x => ?_⟩
          rw [h1.mem_uni h2, hmem1, ha.mem_left, mem_left_part, mem_node x m]
          have hleft : ∀ x ∈ lb, Before x n := fun x hx => (hb.1 x hx).1.trans hbefore
          grind
        · have hafter : Before n m := before_of_not_gor hg heq
          obtain ⟨h1, hmem1⟩ := hih ra (node m nil rb) ha.2.2.2 hb.right_part
            (by simp only [size_node, size_nil]; omega)
          obtain ⟨h2, hmem2⟩ := hih (node n la ra) lb ha hb.2.2.1 (by simp only [size_node]; omega)
          simp only [hg, Bool.false_eq_true, if_false]
          refine ⟨(h1.uni_spec h2).1, fun x => ?_⟩
          rw [h1.mem_uni h2, hmem1, ha.mem_right, mem_right_part, mem_node x m]
          have hright : ∀ x ∈ rb, Before n x := fun x hx => hafter.trans (hb.2.1 x hx).1
          grind

theorem Apt.int_spec {a b : Tree κ} (ha : Apt id a) (hb : Apt id b) :
    Apt id (int a b) ∧ ∀ x, x ∈ int a b ↔ x ∈ a ∧ x ∈ b := by
  apply int_turns ha hb
  unfold intNeed
  split
  · split <;> omega
  · omega

end Intersection

end Nockchain.Lib.Tree
