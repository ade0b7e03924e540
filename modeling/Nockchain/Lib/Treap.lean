import Mathlib

/-!
# `Nockchain.Lib.Treap`: search trees that are heaps, over two total orders

A treap is a binary tree of entries whose keys are a search tree for one total
order (`gor`) and a heap for another (`mor`). The tree of a set of entries is
then unique: `Apt.ext` says that two treaps with the same entries are equal, so
a treap can stand for the set it holds and be compared, hashed or encoded as it
is.

The entries are of any type `α`, with a function `key : α → κ`; a set is the
case `key = id` and a map the case `key = Prod.fst`. Every operation comes with
two lemmas, one that it keeps `Apt` and one that says which entries it leaves.
-/

set_option autoImplicit false

namespace Nockchain.Lib

/-- The two total orders of a treap, each as a test. -/
class TreapOrder (κ : Type) where
  /-- The search order: an entry that comes first goes to the left. -/
  gor : κ → κ → Bool
  /-- The heap order: an entry that comes first goes to the top. -/
  mor : κ → κ → Bool
  gor_total : ∀ a b, gor a b || gor b a
  gor_antisymm : ∀ a b, gor a b → gor b a → a = b
  gor_trans : ∀ a b c, gor a b → gor b c → gor a c
  mor_total : ∀ a b, mor a b || mor b a
  mor_antisymm : ∀ a b, mor a b → mor b a → a = b
  mor_trans : ∀ a b c, mor a b → mor b c → mor a c

namespace TreapOrder

variable {κ : Type} [TreapOrder κ] {a b c : κ}

/-- `a` is strictly before `b` in the search order. -/
def Before (a b : κ) : Prop := gor a b ∧ a ≠ b

/-- `a` is strictly above `b` in the heap order. -/
def Above (a b : κ) : Prop := mor a b ∧ a ≠ b

theorem gor_of_not (h : ¬ gor a b) : gor b a := by
  have := gor_total a b
  simp_all

theorem mor_of_not (h : ¬ mor a b) : mor b a := by
  have := mor_total a b
  simp_all

theorem Before.trans (hab : Before a b) (hbc : Before b c) : Before a c := by
  constructor
  · exact gor_trans a b c hab.1 hbc.1
  · rintro rfl
    exact hab.2 (gor_antisymm _ _ hab.1 hbc.1)

theorem Above.trans (hab : Above a b) (hbc : Above b c) : Above a c := by
  constructor
  · exact mor_trans a b c hab.1 hbc.1
  · rintro rfl
    exact hab.2 (mor_antisymm _ _ hab.1 hbc.1)

theorem Before.asymm (hab : Before a b) : ¬ Before b a := by
  intro hba
  exact hab.2 (gor_antisymm _ _ hab.1 hba.1)

theorem Above.asymm (hab : Above a b) : ¬ Above b a := by
  intro hba
  exact hab.2 (mor_antisymm _ _ hab.1 hba.1)

theorem before_of_gor (h : gor a b) (hne : a ≠ b) : Before a b := ⟨h, hne⟩

theorem before_of_not_gor (h : ¬ gor a b) (hne : a ≠ b) : Before b a :=
  ⟨gor_of_not h, hne.symm⟩

theorem above_of_mor (h : mor a b) (hne : a ≠ b) : Above a b := ⟨h, hne⟩

theorem above_of_not_mor (h : ¬ mor a b) (hne : a ≠ b) : Above b a :=
  ⟨mor_of_not h, hne.symm⟩

end TreapOrder

/-- A binary tree with an entry at each node. -/
inductive Tree (α : Type) where
  | nil
  | node (n : α) (l r : Tree α)
deriving DecidableEq, Repr, Inhabited

namespace Tree

open TreapOrder List

section Elements

variable {α : Type}

/-- The entries of a tree, from left to right. -/
def toList : Tree α → List α
  | nil => []
  | node n l r => toList l ++ n :: toList r

instance : Membership α (Tree α) := ⟨fun t x => x ∈ t.toList⟩

theorem mem_def (x : α) (t : Tree α) : x ∈ t ↔ x ∈ t.toList := Iff.rfl

@[simp] theorem not_mem_nil (x : α) : x ∉ (nil : Tree α) := by
  simp [mem_def, toList]

@[simp] theorem mem_node (x n : α) (l r : Tree α) : x ∈ node n l r ↔ x = n ∨ x ∈ l ∨ x ∈ r := by
  simp only [mem_def, toList, mem_append, mem_cons]
  tauto

/-- The number of entries. -/
def size : Tree α → Nat
  | nil => 0
  | node _ l r => l.size + r.size + 1

@[simp] theorem size_nil : (nil : Tree α).size = 0 := rfl

@[simp] theorem size_node (n : α) (l r : Tree α) : (node n l r).size = l.size + r.size + 1 := rfl

theorem length_toList (t : Tree α) : t.toList.length = t.size := by
  induction t with
  | nil => rfl
  | node n l r ihl ihr => simp [toList, ihl, ihr]; omega

/-! ### Traversals -/

/-- The entries from right to left, each through `f`, in front of a list. -/
def listOnto {β : Type} (f : α → β) : Tree α → List β → List β
  | nil, b => b
  | node n l r, b => listOnto f r (f n :: listOnto f l b)

variable {β : Type}

theorem listOnto_eq (f : α → β) (t : Tree α) (b : List β) :
    listOnto f t b = t.toList.reverse.map f ++ b := by
  induction t generalizing b with
  | nil => rfl
  | node n l r ihl ihr => simp [listOnto, toList, ihl, ihr]

/-- Fold over the entries: a node first, then its left side, then its right side. -/
def fold {β : Type} (f : α → β → β) : Tree α → β → β
  | nil, b => b
  | node n l r, b => fold f r (fold f l (f n b))

/-- The entries, each node before its two sides. -/
def preorder : Tree α → List α
  | nil => []
  | node n l r => n :: (preorder l ++ preorder r)

theorem fold_eq (f : α → β → β) (t : Tree α) (b : β) :
    fold f t b = t.preorder.foldl (fun b x => f x b) b := by
  induction t generalizing b with
  | nil => rfl
  | node n l r ihl ihr => simp [fold, preorder, ihl, ihr, foldl_append]

theorem preorder_perm (t : Tree α) : t.preorder.Perm t.toList := by
  induction t with
  | nil => exact List.Perm.refl _
  | node n l r ihl ihr =>
    have h : (n :: (l.preorder ++ r.preorder)).Perm (n :: (l.toList ++ r.toList)) :=
      (ihl.append ihr).cons n
    exact h.trans perm_middle.symm

/-- `p` holds of every entry. -/
def all (p : α → Bool) : Tree α → Bool
  | nil => true
  | node n l r => p n && all p l && all p r

@[simp] theorem all_eq_true (p : α → Bool) (t : Tree α) : t.all p ↔ ∀ x ∈ t, p x := by
  induction t with
  | nil => simp [all]
  | node n l r ihl ihr =>
    simp only [all, Bool.and_eq_true, ihl, ihr, mem_node]
    constructor
    · rintro ⟨⟨hn, hl⟩, hr⟩ x (rfl | hx | hx)
      · exact hn
      · exact hl x hx
      · exact hr x hx
    · intro h
      exact ⟨⟨h n (.inl rfl), fun x hx => h x (.inr (.inl hx))⟩,
        fun x hx => h x (.inr (.inr hx))⟩

/-- `all` with a test that may fail; entries after one that is refused are not tested. -/
def allM (p : α → Option Bool) : Tree α → Option Bool
  | nil => some true
  | node n l r => do
    if !(← p n) then return false
    if !(← allM p l) then return false
    allM p r

theorem allM_eq_some_true (p : α → Option Bool) (t : Tree α) :
    t.allM p = some true ↔ ∀ x ∈ t, p x = some true := by
  induction t with
  | nil => simp [allM]
  | node n l r ihl ihr =>
    have hmem : (∀ x ∈ node n l r, p x = some true) ↔
        p n = some true ∧ (∀ x ∈ l, p x = some true) ∧ ∀ x ∈ r, p x = some true := by
      simp [mem_node, or_imp, forall_and]
    rw [hmem, ← ihl, ← ihr]
    cases hn : p n with
    | none => simp [allM, hn]
    | some b => cases hl : allM p l with
      | none => cases b <;> simp [allM, hn, hl]
      | some c => cases b <;> cases c <;> simp [allM, hn, hl]

/-- `fold` with a step that may fail. -/
def foldM {β : Type} (f : α → β → Option β) : Tree α → β → Option β
  | nil, b => some b
  | node n l r, b => do
    let b ← f n b
    let b ← foldM f l b
    foldM f r b

theorem foldM_eq (f : α → β → Option β) (t : Tree α) (b : β) :
    foldM f t b = t.preorder.foldlM (fun b x => f x b) b := by
  induction t generalizing b with
  | nil => rfl
  | node n l r ihl ihr => simp [foldM, preorder, ihl, ihr, foldlM_append]

/-- The tree with each entry changed in place. -/
def map {β : Type} (f : α → β) : Tree α → Tree β
  | nil => nil
  | node n l r => node (f n) (map f l) (map f r)

theorem toList_map (f : α → β) (t : Tree α) : (t.map f).toList = t.toList.map f := by
  induction t with
  | nil => rfl
  | node n l r ihl ihr => simp [map, toList, ihl, ihr]

theorem mem_map (f : α → β) (t : Tree α) (y : β) : y ∈ t.map f ↔ ∃ x ∈ t, f x = y := by
  simp [mem_def, toList_map]

/-- Two trees of one shape, with related elements. -/
inductive Rel {β : Type} (R : α → β → Prop) : Tree α → Tree β → Prop where
  | nil : Rel R nil nil
  | node {n : α} {m : β} {l r : Tree α} {l' r' : Tree β} (h : R n m) (hl : Rel R l l')
      (hr : Rel R r r') : Rel R (node n l r) (node m l' r')

variable {t : Tree α}

variable {t' : Tree β}

theorem Rel.mono {R S : α → β → Prop} (h : Rel R t t')
    (hRS : ∀ x y, R x y → S x y) : Rel S t t' := by
  induction h with
  | nil => exact .nil
  | node h _ _ ihl ihr => exact .node (hRS _ _ h) ihl ihr

theorem Rel.forall₂_toList {R : α → β → Prop}
    (h : Rel R t t') : List.Forall₂ R t.toList t'.toList := by
  induction h with
  | nil => exact .nil
  | node h _ _ ihl ihr => exact rel_append ihl (.cons h ihr)

theorem eq_of_rel {t t' : Tree α} (h : Rel (· = ·) t t') : t = t' := by
  induction h with
  | nil => rfl
  | node h _ _ ihl ihr => rw [h, ihl, ihr]

/-- `map` with a function that may fail, at a node before its two sides. -/
def mapM {β : Type} (f : α → Option β) : Tree α → Option (Tree β)
  | nil => some nil
  | node n l r => do
    let n ← f n
    let l ← mapM f l
    let r ← mapM f r
    return node n l r

theorem mapM_node_eq_some {f : α → Option β} {n : α} {l r : Tree α} :
    (node n l r).mapM f = some t' ↔ ∃ m, f n = some m ∧ ∃ l', l.mapM f = some l' ∧
      ∃ r', r.mapM f = some r' ∧ node m l' r' = t' := by
  simp [mapM, Option.bind_eq_some_iff]

theorem toList_mapM {f : α → Option β}
    (h : t.mapM f = some t') : List.Forall₂ (fun x y => f x = some y) t.toList t'.toList := by
  induction t generalizing t' with
  | nil =>
    simp only [mapM, Option.some.injEq] at h
    subst h
    exact .nil
  | node n l r ihl ihr =>
    obtain ⟨m, hm, l', hl, r', hr, rfl⟩ := mapM_node_eq_some.1 h
    exact rel_append (ihl hl) (.cons hm (ihr hr))

theorem mem_mapM {f : α → Option β}
    (h : t.mapM f = some t') (y : β) : y ∈ t' ↔ ∃ x ∈ t, f x = some y := by
  induction t generalizing t' with
  | nil =>
    simp only [mapM, Option.some.injEq] at h
    subst h
    simp
  | node n l r ihl ihr =>
    obtain ⟨m, hm, l', hl, r', hr, rfl⟩ := mapM_node_eq_some.1 h
    simp only [mem_node, ihl hl, ihr hr, or_and_right, exists_or, exists_eq_left, hm,
      Option.some.injEq]
    rw [eq_comm]

end Elements

section Operations

variable {α κ : Type} [TreapOrder κ] (key : α → κ)

/-! ### The invariant -/

/-- The tree is a search tree for `gor` and a heap for `mor`, strictly in both. -/
def Apt : Tree α → Prop
  | nil => True
  | node n l r =>
    (∀ x ∈ l, Before (key x) (key n) ∧ Above (key n) (key x)) ∧
    (∀ x ∈ r, Before (key n) (key x) ∧ Above (key n) (key x)) ∧
    Apt l ∧ Apt r

variable {key}

@[simp] theorem apt_nil : Apt key (nil : Tree α) := trivial

variable {l r : Tree α}

variable {n x : α}

theorem apt_node : Apt key (node n l r) ↔
      (∀ x ∈ l, Before (key x) (key n) ∧ Above (key n) (key x)) ∧
      (∀ x ∈ r, Before (key n) (key x) ∧ Above (key n) (key x)) ∧ Apt key l ∧ Apt key r := Iff.rfl

variable {t : Tree α}

/-- Two entries of a treap with the same key are the same entry. -/
theorem Apt.eq_of_key (ht : Apt key t) {y : α} (hx : x ∈ t) (hy : y ∈ t)
    (h : key x = key y) : x = y := by
  induction t with
  | nil => simp at hx
  | node n l r ihl ihr =>
    obtain ⟨hl, hr, hal, har⟩ := ht
    rw [mem_node] at hx hy
    -- Entries on different sides of a node have different keys.
    rcases hx with rfl | hx | hx <;> rcases hy with rfl | hy | hy
    · rfl
    · exact absurd h.symm (hl y hy).1.2
    · exact absurd h (hr y hy).1.2
    · exact absurd h (hl x hx).1.2
    · exact ihl hal hx hy
    · exact absurd h ((hl x hx).1.trans (hr y hy).1).2
    · exact absurd h.symm (hr x hx).1.2
    · exact absurd h.symm ((hl y hy).1.trans (hr x hx).1).2
    · exact ihr har hx hy

theorem Apt.nodup (ht : Apt key t) : (t.toList.map key).Nodup := by
  induction t with
  | nil => simp [toList]
  | node n l r ihl ihr =>
    obtain ⟨hl, hr, hal, har⟩ := ht
    simp only [toList, map_append, map_cons]
    rw [nodup_append, nodup_cons]
    refine ⟨ihl hal, ⟨?_, ihr har⟩, ?_⟩
    · intro h
      obtain ⟨x, hx, hk⟩ := List.mem_map.1 h
      exact (hr x hx).1.2 hk.symm
    intro a ha b hb
    obtain ⟨x, hx, rfl⟩ := List.mem_map.1 ha
    rcases mem_cons.1 hb with rfl | hb
    · exact (hl x hx).1.2
    · obtain ⟨y, hy, rfl⟩ := List.mem_map.1 hb
      exact ((hl x hx).1.trans (hr y hy).1).2

/-- The shape of a treap is that of its keys. -/
theorem apt_map {β : Type} {key' : β → κ} (f : α → β) (hf : ∀ x, key' (f x) = key x)
    (t : Tree α) : Apt key' (t.map f) ↔ Apt key t := by
  induction t with
  | nil => simp [map]
  | node n l r ihl ihr =>
    simp only [map, apt_node, ihl, ihr, mem_map, hf]
    constructor
    · rintro ⟨hl, hr, ha⟩
      exact ⟨fun x hx => hf x ▸ hl _ ⟨x, hx, rfl⟩, fun x hx => hf x ▸ hr _ ⟨x, hx, rfl⟩, ha⟩
    rintro ⟨hl, hr, ha⟩
    refine ⟨?_, ?_, ha⟩
    · rintro _ ⟨x, hx, rfl⟩
      rw [hf]
      exact hl x hx
    · rintro _ ⟨x, hx, rfl⟩
      rw [hf]
      exact hr x hx

theorem apt_mapM {β : Type} {key' : β → κ} {f : α → Option β}
    (hf : ∀ x y, f x = some y → key' y = key x) {t' : Tree β}
    (h : t.mapM f = some t') (ht : Apt key t) : Apt key' t' := by
  induction t generalizing t' with
  | nil =>
    simp only [mapM, Option.some.injEq] at h
    subst h
    trivial
  | node n l r ihl ihr =>
    obtain ⟨m, hm, l', hl, r', hr, rfl⟩ := mapM_node_eq_some.1 h
    refine ⟨?_, ?_, ihl hl ht.2.2.1, ihr hr ht.2.2.2⟩
    · intro y hy
      obtain ⟨x, hx, hxy⟩ := (mem_mapM hl y).1 hy
      rw [hf x y hxy, hf n m hm]
      exact ht.1 x hx
    · intro y hy
      obtain ⟨x, hx, hxy⟩ := (mem_mapM hr y).1 hy
      rw [hf x y hxy, hf n m hm]
      exact ht.2.1 x hx

/-- The root is the top of the heap, so it is determined by the entries. -/
theorem Apt.root_above (ht : Apt key (node n l r))
    (hx : x ∈ node n l r) : x = n ∨ Above (key n) (key x) := by
  rw [mem_node] at hx
  rcases hx with rfl | hx | hx
  · exact .inl rfl
  · exact .inr (ht.1 x hx).2
  · exact .inr (ht.2.1 x hx).2

theorem Apt.mem_left (ht : Apt key (node n l r)) (x : α) :
    x ∈ l ↔ x ∈ node n l r ∧ Before (key x) (key n) := by
  rw [mem_node]
  constructor
  · intro hx
    exact ⟨.inr (.inl hx), (ht.1 x hx).1⟩
  · rintro ⟨rfl | hx | hx, hb⟩
    · exact absurd rfl hb.2
    · exact hx
    · exact absurd hb (ht.2.1 x hx).1.asymm

theorem Apt.mem_right (ht : Apt key (node n l r)) (x : α) :
    x ∈ r ↔ x ∈ node n l r ∧ Before (key n) (key x) := by
  rw [mem_node]
  constructor
  · intro hx
    exact ⟨.inr (.inr hx), (ht.2.1 x hx).1⟩
  · rintro ⟨rfl | hx | hx, hb⟩
    · exact absurd rfl hb.2
    · exact absurd hb (ht.1 x hx).1.asymm
    · exact hx

theorem Apt.below_of_root (ht : Apt key t) {b : κ}
    (h : ∀ m l r, t = node m l r → Above b (key m)) (hx : x ∈ t) : Above b (key x) := by
  cases t with
  | nil => simp at hx
  | node m l r =>
    have hm := h m l r rfl
    rw [mem_node] at hx
    rcases hx with rfl | hx | hx
    · exact hm
    · exact hm.trans (ht.1 x hx).2
    · exact hm.trans (ht.2.1 x hx).2

/-- **A treap is determined by its entries.** -/
theorem Apt.ext {s t : Tree α} (hs : Apt key s) (ht : Apt key t) (h : ∀ x, x ∈ s ↔ x ∈ t) :
    s = t := by
  induction s generalizing t with
  | nil =>
    cases t with
    | nil => rfl
    | node n l r => exact absurd ((h n).2 (by simp)) (not_mem_nil n)
  | node n l r ihl ihr =>
    cases t with
    | nil => exact absurd ((h n).1 (by simp)) (not_mem_nil n)
    | node m l' r' =>
      have hnm : n = m := by
        rcases ht.root_above ((h n).1 (by simp)) with hn | hn
        · exact hn
        rcases hs.root_above ((h m).2 (by simp)) with hm | hm
        · exact hm.symm
        · exact absurd hm hn.asymm
      subst hnm
      have hl : l = l' := by
        apply ihl hs.2.2.1 ht.2.2.1
        intro x
        rw [hs.mem_left, ht.mem_left, h]
      have hr : r = r' := by
        apply ihr hs.2.2.2 ht.2.2.2
        intro x
        rw [hs.mem_right, ht.mem_right, h]
      rw [hl, hr]

/-! ### Rotations -/

/-- Putting a new left subtree under a node, when only one entry of it may belong above. -/
theorem apt_rotate_left {b m : α} {l r r' : Tree α} (hd : Apt key (node m l r'))
    (hbefore : ∀ x ∈ node m l r', Before (key x) (key n))
    (habove : ∀ x ∈ node m l r', x = b ∨ Above (key n) (key x))
    (hr : ∀ x ∈ r, Before (key n) (key x) ∧ Above (key n) (key x)) (har : Apt key r) :
    Apt key (if mor (key n) (key m) then node n (node m l r') r else node m l (node n r' r)) := by
  have hm : m ∈ node m l r' := by simp
  split
  · rename_i hmor
    have hnm : Above (key n) (key m) := above_of_mor hmor (hbefore m hm).2.symm
    refine ⟨?_, hr, hd, har⟩
    intro x hx
    rcases hd.root_above hx with rfl | hx'
    · exact ⟨hbefore x hx, hnm⟩
    · exact ⟨hbefore x hx, hnm.trans hx'⟩
  · rename_i hmor
    have hmn : Above (key m) (key n) := above_of_not_mor hmor (hbefore m hm).2.symm
    have hmb : m = b := (habove m hm).resolve_right hmn.asymm
    -- Below the new root, every entry other than `b` was already below `n`.
    have hr' : ∀ x ∈ r', Before (key x) (key n) ∧ Above (key n) (key x) := by
      intro x hx
      have hx' : x ∈ node m l r' := by simp [hx]
      refine ⟨hbefore x hx', (habove x hx').resolve_left ?_⟩
      rintro rfl
      exact (hd.2.1 x hx).1.2 (by rw [hmb])
    refine ⟨hd.1, ?_, hd.2.2.1, hr', hr, hd.2.2.2, har⟩
    intro x hx
    rw [mem_node] at hx
    rcases hx with rfl | hx | hx
    · exact ⟨hbefore m hm, hmn⟩
    · exact hd.2.1 x hx
    · exact ⟨(hbefore m hm).trans (hr x hx).1, hmn.trans (hr x hx).2⟩

/-- The mirror image of `apt_rotate_left`, for a new right subtree. -/
theorem apt_rotate_right {b m : α} {l l' r : Tree α} (hd : Apt key (node m l' r))
    (hbefore : ∀ x ∈ node m l' r, Before (key n) (key x))
    (habove : ∀ x ∈ node m l' r, x = b ∨ Above (key n) (key x))
    (hl : ∀ x ∈ l, Before (key x) (key n) ∧ Above (key n) (key x)) (hal : Apt key l) :
    Apt key (if mor (key n) (key m) then node n l (node m l' r) else node m (node n l l') r) := by
  have hm : m ∈ node m l' r := by simp
  split
  · rename_i hmor
    have hnm : Above (key n) (key m) := above_of_mor hmor (hbefore m hm).2
    refine ⟨hl, ?_, hal, hd⟩
    intro x hx
    rcases hd.root_above hx with rfl | hx'
    · exact ⟨hbefore x hx, hnm⟩
    · exact ⟨hbefore x hx, hnm.trans hx'⟩
  · rename_i hmor
    have hmn : Above (key m) (key n) := above_of_not_mor hmor (hbefore m hm).2
    have hmb : m = b := (habove m hm).resolve_right hmn.asymm
    have hl' : ∀ x ∈ l', Before (key n) (key x) ∧ Above (key n) (key x) := by
      intro x hx
      have hx' : x ∈ node m l' r := by simp [hx]
      refine ⟨hbefore x hx', (habove x hx').resolve_left ?_⟩
      rintro rfl
      exact (hd.1 x hx).1.2 (by rw [hmb])
    refine ⟨?_, hd.2.1, ⟨hl, hl', hal, hd.2.2.1⟩, hd.2.2.2⟩
    intro x hx
    rw [mem_node] at hx
    rcases hx with rfl | hx | hx
    · exact ⟨hbefore m hm, hmn⟩
    · exact ⟨(hl x hx).1.trans (hbefore m hm), hmn.trans (hl x hx).2⟩
    · exact hd.1 x hx

/-! ### Joining -/

variable (key) in
/-- One step of `join`: the tree `node n l r` on the left, `rest` joining `r` with a tree. -/
def joinUnder (n : α) (l r : Tree α) (rest : Tree α → Tree α) : Tree α → Tree α
  | nil => node n l r
  | node m l' r' =>
    if mor (key n) (key m) then node n l (rest (node m l' r'))
    else node m (joinUnder n l r rest l') r'

variable (key) in
/-- Join two trees, every entry of the first before every entry of the second: the root that is
above the other stays, and the other tree is joined to its inner side. -/
def join : Tree α → Tree α → Tree α
  | nil, e => e
  | node n l r, e => joinUnder key n l r (join r) e

theorem Apt.join_spec {d e : Tree α} (hd : Apt key d) (he : Apt key e)
    (h : ∀ x ∈ d, ∀ y ∈ e, Before (key x) (key y)) :
    Apt key (join key d e) ∧ ∀ x, x ∈ join key d e ↔ x ∈ d ∨ x ∈ e := by
  induction d generalizing e with
  | nil => exact ⟨he, fun x => by simp [join]⟩
  | node n l r _ ihr =>
    -- The left tree is fixed; the descent is along the left spine of the right tree.
    simp only [join]
    induction e with
    | nil => exact ⟨hd, fun x => by simp [joinUnder]⟩
    | node m l' r' ihl' _ =>
      have hnm : Before (key n) (key m) := h n (by simp) m (by simp)
      simp only [joinUnder]
      split
      · rename_i hmor
        have habove : Above (key n) (key m) := above_of_mor hmor hnm.2
        obtain ⟨ha, hmem⟩ := ihr hd.2.2.2 he (fun x hx y hy => h x (by simp [hx]) y hy)
        refine ⟨⟨hd.1, fun x hx => ?_, hd.2.2.1, ha⟩, fun x => ?_⟩
        · rcases (hmem x).1 hx with hx | hx
          · exact hd.2.1 x hx
          · refine ⟨h n (by simp) x hx, ?_⟩
            rcases he.root_above hx with rfl | hx'
            · exact habove
            · exact habove.trans hx'
        · rw [mem_node, hmem, mem_node x n]
          tauto
      · rename_i hmor
        have habove : Above (key m) (key n) := above_of_not_mor hmor hnm.2
        obtain ⟨ha, hmem⟩ := ihl' he.2.2.1 (fun x hx y hy => h x hx y (by simp [hy]))
        refine ⟨⟨fun x hx => ?_, he.2.1, ha, he.2.2.2⟩, fun x => ?_⟩
        · rcases (hmem x).1 hx with hx | hx
          · refine ⟨h x hx m (by simp), ?_⟩
            rcases hd.root_above hx with rfl | hx'
            · exact habove
            · exact habove.trans hx'
          · exact he.1 x hx
        · rw [mem_node, hmem, mem_node x m]
          tauto

/-! ### The test -/

variable [DecidableEq κ]

variable (key) in
/-- The root of a tree, if it has one, is strictly below a key. -/
def rootBelow (b : κ) : Tree α → Bool
  | nil => true
  | node m _ _ => mor b (key m) && b != key m

variable (key) in
/-- The test for `Apt`, by one descent: each key lies strictly between the bounds that the path
to it sets, `hi` and `lo`, and strictly below its parent. -/
def aptTest (hi lo : Option κ) : Tree α → Bool
  | nil => true
  | node n l r =>
    (hi.all fun u => gor (key n) u && key n != u) &&
    (lo.all fun u => gor u (key n) && u != key n) &&
    (rootBelow key (key n) l && aptTest (some (key n)) lo l) &&
    (rootBelow key (key n) r && aptTest hi (some (key n)) r)

theorem rootBelow_eq_true {b : κ} :
    rootBelow key b t ↔ ∀ m l r, t = node m l r → Above b (key m) := by
  cases t with
  | nil => simp [rootBelow]
  | node m l r => simp [rootBelow, Above]

/-- The test accepts exactly the treaps whose keys lie between the bounds. -/
theorem aptTest_eq_true (hi lo : Option κ) (t : Tree α) : aptTest key hi lo t ↔
      Apt key t ∧ (∀ u ∈ hi, ∀ x ∈ t, Before (key x) u) ∧ (∀ u ∈ lo, ∀ x ∈ t, Before u (key x)) := by
  induction t generalizing hi lo with
  | nil => simp [aptTest]
  | node n l r ihl ihr =>
    have hhi : (hi.all fun u => gor (key n) u && key n != u) ↔ ∀ u ∈ hi, Before (key n) u := by
      cases hi <;> simp [Before]
    have hlo : (lo.all fun u => gor u (key n) && u != key n) ↔ ∀ u ∈ lo, Before u (key n) := by
      cases lo <;> simp [Before]
    simp only [aptTest, Bool.and_eq_true, hhi, hlo, ihl, ihr, rootBelow_eq_true, apt_node]
    constructor
    · rintro ⟨⟨⟨hn1, hn2⟩, hbl, hal, hl1, hl2⟩, hbr, har, hr1, hr2⟩
      refine ⟨⟨fun x hx => ⟨hl1 _ rfl x hx, hal.below_of_root hbl hx⟩,
        fun x hx => ⟨hr2 _ rfl x hx, har.below_of_root hbr hx⟩, hal, har⟩, ?_, ?_⟩
      · intro u hu x hx
        rw [mem_node] at hx
        rcases hx with rfl | hx | hx
        · exact hn1 u hu
        · exact (hl1 _ rfl x hx).trans (hn1 u hu)
        · exact hr1 u hu x hx
      · intro u hu x hx
        rw [mem_node] at hx
        rcases hx with rfl | hx | hx
        · exact hn2 u hu
        · exact hl2 u hu x hx
        · exact (hn2 u hu).trans (hr2 _ rfl x hx)
    · rintro ⟨⟨hl, hr, hal, har⟩, h1, h2⟩
      refine ⟨⟨⟨fun u hu => h1 u hu n (by simp), fun u hu => h2 u hu n (by simp)⟩, ?_, hal, ?_, ?_⟩,
        ?_, har, ?_, ?_⟩
      · rintro m l' r' rfl
        exact (hl m (by simp)).2
      · rintro u hu x hx
        cases hu
        exact (hl x hx).1
      · exact fun u hu x hx => h2 u hu x (by simp [hx])
      · rintro m l' r' rfl
        exact (hr m (by simp)).2
      · exact fun u hu x hx => h1 u hu x (by simp [hx])
      · rintro u hu x hx
        cases hu
        exact (hr x hx).1

/-! ### Lookup -/

variable (key) in
/-- The entry with a key, by descent along the search order. -/
def find (b : κ) : Tree α → Option α
  | nil => none
  | node n l r =>
    if b = key n then some n
    else if gor b (key n) then find b l
    else find b r

theorem Apt.find_eq_some (ht : Apt key t) (b : κ) (x : α) :
    t.find key b = some x ↔ x ∈ t ∧ key x = b := by
  induction t with
  | nil => simp [find]
  | node n l r ihl ihr =>
    by_cases hb : b = key n
    · subst hb
      simp only [find, if_true, Option.some.injEq]
      constructor
      · rintro rfl
        simp
      · rintro ⟨hx, hk⟩
        exact ht.eq_of_key (by simp) hx hk.symm
    -- The search goes to the side that the order puts `b` on; the rest is elsewhere.
    by_cases hg : gor b (key n)
    · simp only [find, hb, hg, if_true, if_false, ihl ht.2.2.1]
      rw [ht.mem_left]
      constructor
      · rintro ⟨⟨hx, -⟩, hk⟩
        exact ⟨hx, hk⟩
      · rintro ⟨hx, rfl⟩
        exact ⟨⟨hx, before_of_gor hg hb⟩, rfl⟩
    · simp only [find, hb, hg, if_false, ihr ht.2.2.2, Bool.false_eq_true]
      rw [ht.mem_right]
      constructor
      · rintro ⟨⟨hx, -⟩, hk⟩
        exact ⟨hx, hk⟩
      · rintro ⟨hx, rfl⟩
        exact ⟨⟨hx, before_of_not_gor hg hb⟩, rfl⟩

/-! ### Insertion -/

variable (key) in
/-- Insert an entry in place of the one with the same key, if there is one. The new entry goes
down by the search order and is rotated up past every node it is above. -/
def put (b : α) : Tree α → Tree α
  | nil => node b nil nil
  | node n l r =>
    if key b = key n then node b l r
    else if gor (key b) (key n) then
      match put b l with
      | nil => nil -- an insertion is never empty
      | node m l' r' =>
        if mor (key n) (key m) then node n (node m l' r') r
        else node m l' (node n r' r)
    else
      match put b r with
      | nil => nil
      | node m l' r' =>
        if mor (key n) (key m) then node n l (node m l' r')
        else node m (node n l l') r'

theorem put_ne_nil (b : α) (t : Tree α) : t.put key b ≠ nil := by
  induction t with
  | nil => simp [put]
  | node n l r ihl ihr =>
    simp only [put]
    split
    · simp
    split
    · cases hd : put key b l with
      | nil => exact absurd hd ihl
      | node m l' r' => simp only; split <;> simp
    · cases hd : put key b r with
      | nil => exact absurd hd ihr
      | node m l' r' => simp only; split <;> simp

/-- What an insertion leaves: the new entry, and the old ones with other keys. -/
theorem Apt.put_spec (ht : Apt key t) (b : α) :
    Apt key (t.put key b) ∧ ∀ x, x ∈ t.put key b ↔ x = b ∨ x ∈ t ∧ key x ≠ key b := by
  induction t with
  | nil => simp [put, apt_node]
  | node n l r ihl ihr =>
    have ⟨hl, hr, hal, har⟩ := ht
    by_cases hb : key b = key n
    · simp only [put, hb, if_true, apt_node, mem_node]
      refine ⟨⟨hl, hr, hal, har⟩, fun x => ?_⟩
      have hne : ∀ x, x ∈ l ∨ x ∈ r → key x ≠ key n := by
        rintro x (hx | hx)
        · exact (hl x hx).1.2
        · exact (hr x hx).1.2.symm
      grind
    by_cases hg : gor (key b) (key n)
    · obtain ⟨hd, hmem⟩ := ihl hal
      have hbn : Before (key b) (key n) := before_of_gor hg hb
      have hbefore : ∀ x ∈ put key b l, Before (key x) (key n) := by
        intro x hx
        rcases (hmem x).1 hx with rfl | ⟨hx, -⟩
        · exact hbn
        · exact (hl x hx).1
      have habove : ∀ x ∈ put key b l, x = b ∨ Above (key n) (key x) := by
        intro x hx
        rcases (hmem x).1 hx with rfl | ⟨hx, -⟩
        · exact .inl rfl
        · exact .inr (hl x hx).2
      have hright : ∀ x ∈ r, key x ≠ key b := fun x hx => (hbn.trans (hr x hx).1).2.symm
      simp only [put, hb, hg, if_true, if_false]
      cases hp : put key b l with
      | nil => exact absurd hp (put_ne_nil b l)
      | node m l' r' =>
        rw [hp] at hd hmem hbefore habove
        refine ⟨apt_rotate_left hd hbefore habove hr har, fun x => ?_⟩
        have hx : x ∈ (if mor (key n) (key m) then node n (node m l' r') r
            else node m l' (node n r' r)) ↔ x = n ∨ x ∈ node m l' r' ∨ x ∈ r := by
          split <;> grind [mem_node]
        rw [hx, hmem, mem_node]
        grind
    · obtain ⟨hd, hmem⟩ := ihr har
      have hbn : Before (key n) (key b) := before_of_not_gor hg hb
      have hbefore : ∀ x ∈ put key b r, Before (key n) (key x) := by
        intro x hx
        rcases (hmem x).1 hx with rfl | ⟨hx, -⟩
        · exact hbn
        · exact (hr x hx).1
      have habove : ∀ x ∈ put key b r, x = b ∨ Above (key n) (key x) := by
        intro x hx
        rcases (hmem x).1 hx with rfl | ⟨hx, -⟩
        · exact .inl rfl
        · exact .inr (hr x hx).2
      have hleft : ∀ x ∈ l, key x ≠ key b := fun x hx => ((hl x hx).1.trans hbn).2
      simp only [put, hb, hg, if_false, Bool.false_eq_true]
      cases hp : put key b r with
      | nil => exact absurd hp (put_ne_nil b r)
      | node m l' r' =>
        rw [hp] at hd hmem hbefore habove
        refine ⟨apt_rotate_right hd hbefore habove hl hal, fun x => ?_⟩
        have hx : x ∈ (if mor (key n) (key m) then node n l (node m l' r')
            else node m (node n l l') r') ↔ x = n ∨ x ∈ l ∨ x ∈ node m l' r' := by
          split <;> grind [mem_node]
        rw [hx, hmem, mem_node]
        grind

theorem Apt.put (ht : Apt key t) (b : α) : Apt key (t.put key b) :=
  (ht.put_spec b).1

theorem Apt.mem_put (ht : Apt key t) (b x : α) : x ∈ t.put key b ↔ x = b ∨ x ∈ t ∧ key x ≠ key b :=
  (ht.put_spec b).2 x

/-! ### Deletion -/

variable (key) in
/-- Delete the entry with a key. -/
def del (b : κ) : Tree α → Tree α
  | nil => nil
  | node n l r =>
    if b = key n then join key l r
    else if gor b (key n) then node n (del b l) r
    else node n l (del b r)

theorem Apt.del_spec (ht : Apt key t) (b : κ) :
    Apt key (t.del key b) ∧ ∀ x, x ∈ t.del key b ↔ x ∈ t ∧ key x ≠ b := by
  induction t with
  | nil => simp [del]
  | node n l r ihl ihr =>
    have ⟨hl, hr, hal, har⟩ := ht
    by_cases hb : b = key n
    · obtain ⟨ha, hmem⟩ := hal.join_spec har (fun x hx y hy => (hl x hx).1.trans (hr y hy).1)
      simp only [del, hb, if_true]
      refine ⟨ha, fun x => ?_⟩
      rw [mem_node]
      have hne : ∀ x, x ∈ l ∨ x ∈ r → key x ≠ key n := by
        rintro x (hx | hx)
        · exact (hl x hx).1.2
        · exact (hr x hx).1.2.symm
      grind
    by_cases hg : gor b (key n)
    · obtain ⟨ha, hmem⟩ := ihl hal
      have hright : ∀ x ∈ r, key x ≠ b :=
        fun x hx => ((before_of_gor hg hb).trans (hr x hx).1).2.symm
      simp only [del, hb, hg, if_true, if_false]
      refine ⟨⟨fun x hx => hl x ((hmem x).1 hx).1, hr, ha, har⟩, fun x => ?_⟩
      rw [mem_node, mem_node]
      grind
    · obtain ⟨ha, hmem⟩ := ihr har
      have hleft : ∀ x ∈ l, key x ≠ b :=
        fun x hx => ((hl x hx).1.trans (before_of_not_gor hg hb)).2
      simp only [del, hb, hg, if_false, Bool.false_eq_true]
      refine ⟨⟨hl, fun x hx => hr x ((hmem x).1 hx).1, hal, ha⟩, fun x => ?_⟩
      rw [mem_node, mem_node]
      grind

theorem Apt.del (ht : Apt key t) (b : κ) : Apt key (t.del key b) :=
  (ht.del_spec b).1

theorem Apt.mem_del (ht : Apt key t) (b : κ) (x : α) : x ∈ t.del key b ↔ x ∈ t ∧ key x ≠ b :=
  (ht.del_spec b).2 x

end Operations

end Tree

end Nockchain.Lib
