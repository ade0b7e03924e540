import Nockchain.Lib.Fold
import Nockchain.Zoon.Order
import Nockchain.Lib.TreapAlgebra

/-!
# `Nockchain.Zoon.Container`: sets and maps

`z-set` with its engine `z-in`, `z-map` with `z-by`, and the two containers
built from them: the jug (`z-ju`, a map to sets) and the map of maps (`z-bi`).
The molds of `zoon.hoon` admit only trees that pass `apt`; here that is a field,
so that every value is a treap.

Each operation has one lemma. For sets it says which elements there are, for
maps what `get` returns; `ZSet.ext` and `ZMap.ext` say that this determines the
value.
-/

set_option autoImplicit false
set_option linter.unusedSectionVars false

namespace Nockchain

open Lib Option Prod Tree

variable [Tip5]

/-- `z-set`. -/
structure ZSet (κ : Type) [ToNoun κ] where
  tree : Lib.Tree κ
  isApt : tree.Apt id

/-- `z-map`. -/
structure ZMap (κ ν : Type) [ToNoun κ] where
  tree : Lib.Tree (κ × ν)
  isApt : tree.Apt fst

/-! ### Sets -/

namespace ZSet

variable {κ : Type} [ToNoun κ] [DecidableEq κ]

instance : DecidableEq (ZSet κ) := fun s t =>
  decidable_of_iff (s.tree = t.tree) (by cases s; cases t; simp)

instance : Membership κ (ZSet κ) := ⟨fun s x => x ∈ s.tree⟩

variable {s : ZSet κ} {x : κ}

theorem mem_tree : x ∈ s.tree ↔ x ∈ s := Iff.rfl

@[ext] theorem ext {s t : ZSet κ} (h : ∀ x, x ∈ s ↔ x ∈ t) : s = t := by
  obtain ⟨s, hs⟩ := s
  obtain ⟨t, ht⟩ := t
  have hst : s = t := hs.ext ht h
  subst hst
  rfl

/-- `~`. -/
def empty : ZSet κ := ⟨.nil, trivial⟩

instance : EmptyCollection (ZSet κ) := ⟨empty⟩

instance : Inhabited (ZSet κ) := ⟨empty⟩

@[simp] theorem not_mem_empty (x : κ) : x ∉ (∅ : ZSet κ) := not_mem_nil x

theorem eq_empty_iff : s = ∅ ↔ ∀ x, x ∉ s := by
  refine ⟨fun h x hx => not_mem_empty x (h ▸ hx), fun h => ZSet.ext fun x => ?_⟩
  exact iff_of_false (h x) (not_mem_empty x)

/-- `put:z-in`. -/
def put (s : ZSet κ) (b : κ) : ZSet κ := ⟨s.tree.put id b, s.isApt.put b⟩

@[simp] theorem mem_put {b x : κ} : x ∈ s.put b ↔ x = b ∨ x ∈ s := by
  rw [← mem_tree, ← mem_tree, put, s.isApt.mem_put]
  by_cases h : x = b <;> simp [h]

/-- `del:z-in`. -/
def del (s : ZSet κ) (b : κ) : ZSet κ := ⟨s.tree.del id b, s.isApt.del b⟩

@[simp] theorem mem_del {b x : κ} : x ∈ s.del b ↔ x ∈ s ∧ x ≠ b := by
  rw [← mem_tree, del, s.isApt.mem_del]
  rfl

/-- `has:z-in`. -/
def has (s : ZSet κ) (b : κ) : Bool := (s.tree.find id b).isSome

@[simp] theorem has_eq_true {b : κ} : s.has b ↔ b ∈ s := by
  rw [has, isSome_iff_exists]
  constructor
  · rintro ⟨x, hx⟩
    obtain ⟨hm, hk⟩ := (s.isApt.find_eq_some b x).1 hx
    rwa [← show x = b from hk]
  · intro h
    exact ⟨b, (s.isApt.find_eq_some b b).2 ⟨h, rfl⟩⟩

@[simp] theorem has_eq_false {b : κ} : s.has b = false ↔ b ∉ s := by
  rw [← has_eq_true, Bool.not_eq_true]

instance (s : ZSet κ) (x : κ) : Decidable (x ∈ s) := decidable_of_iff _ has_eq_true

/-- `gas:z-in`. -/
def gas (s : ZSet κ) (bs : List κ) : ZSet κ := bs.foldl put s

@[simp] theorem mem_gas {bs : List κ} : x ∈ s.gas bs ↔ x ∈ bs ∨ x ∈ s := by
  induction bs generalizing s with
  | nil => simp [gas]
  | cons b bs ih =>
    have h : s.gas (b :: bs) = (s.put b).gas bs := rfl
    rw [h, ih, mem_put, List.mem_cons]
    tauto

/-- `dif:z-in`. -/
def dif (s t : ZSet κ) : ZSet κ := ⟨s.tree.dif id t.tree, (s.isApt.dif_spec t.isApt).1⟩

@[simp] theorem mem_dif {s t : ZSet κ} : x ∈ s.dif t ↔ x ∈ s ∧ x ∉ t := by
  rw [← mem_tree, ← mem_tree, dif, (s.isApt.dif_spec t.isApt).2]
  refine and_congr_right fun _ => ?_
  constructor
  · intro h hx
    exact h x hx rfl
  · intro h y hy hyx
    rw [show y = x from hyx] at hy
    exact h hy

/-- `int:z-in`. -/
def int (s t : ZSet κ) : ZSet κ := ⟨s.tree.int t.tree, (s.isApt.int_spec t.isApt).1⟩

@[simp] theorem mem_int {s t : ZSet κ} : x ∈ s.int t ↔ x ∈ s ∧ x ∈ t :=
  (s.isApt.int_spec t.isApt).2 x

/-- `uni:z-in`. -/
def uni (s t : ZSet κ) : ZSet κ := ⟨s.tree.uni id t.tree, (s.isApt.uni_spec t.isApt).1⟩

@[simp] theorem mem_uni {s t : ZSet κ} : x ∈ s.uni t ↔ x ∈ s ∨ x ∈ t :=
  s.isApt.mem_uni t.isApt x

/-- `tap:z-in`. -/
def tap (s : ZSet κ) : List κ := s.tree.listOnto id []

@[simp] theorem mem_tap : x ∈ s.tap ↔ x ∈ s := by
  rw [tap, listOnto_eq]
  simp only [List.map_id_fun, id_eq, List.append_nil, List.mem_reverse]
  rfl

theorem nodup_tap (s : ZSet κ) : s.tap.Nodup := by
  have h := s.isApt.nodup
  rw [tap, listOnto_eq]
  simpa using h

theorem tap_put_perm {b : κ} (h : b ∉ s) : (s.put b).tap.Perm (b :: s.tap) := by
  have hnodup : (b :: s.tap).Nodup := by simpa [h] using s.nodup_tap
  rw [List.perm_ext_iff_of_nodup (nodup_tap _) hnodup]
  simp

/-- Sets of one shape have their elements in the same order. -/
theorem forall₂_tap {κ' : Type} [ToNoun κ'] [DecidableEq κ'] {R : κ → κ' → Prop}
    {t : ZSet κ'} (h : Tree.Rel R s.tree t.tree) : List.Forall₂ R s.tap t.tap := by
  simpa [tap, listOnto_eq] using h.forall₂_toList

theorem eq_of_tap_eq {s t : ZSet κ} (h : s.tap = t.tap) : s = t := by
  ext x
  rw [← mem_tap, h, mem_tap]

/-- `rep:z-in`. -/
def rep {β : Type} (s : ZSet κ) (f : κ → β → β) (b : β) : β := s.tree.fold f b

/-- `rep:z-in` with a gate that may crash. -/
def repM {β : Type} (s : ZSet κ) (f : κ → β → Option β) (b : β) : Option β := s.tree.foldM f b

theorem mem_preorder : x ∈ s.tree.preorder ↔ x ∈ s :=
  s.tree.preorder_perm.mem_iff

theorem preorder_nodup (s : ZSet κ) : s.tree.preorder.Nodup := by
  rw [s.tree.preorder_perm.nodup_iff]
  simpa using s.isApt.nodup

variable {β : Type}

/-- A property that the gate keeps holds after `rep`. -/
theorem rep_induction {f : κ → β → β} {b : β} (P : β → Prop) (hb : P b)
    (hstep : ∀ x ∈ s, ∀ b, P b → P (f x b)) : P (s.rep f b) := by
  rw [rep, fold_eq]
  exact List.foldlRecOn _ _ hb fun b hb x hx => hstep x (mem_preorder.1 hx) b hb

theorem rep_congr {f g : κ → β → β} {b : β}
    (h : ∀ x ∈ s, ∀ b, f x b = g x b) : s.rep f b = s.rep g b := by
  rw [rep, rep, fold_eq, fold_eq]
  exact List.foldl_ext _ _ _ fun b x hx => h x (mem_preorder.1 hx) b

/-- A `rep` whose gate adds to a property what an element brings. -/
theorem rep_collect {f : κ → β → β} {b : β} {P : β → Prop} {q : κ → Prop}
    (hstep : ∀ x b, P (f x b) ↔ P b ∨ q x) : P (s.rep f b) ↔ P b ∨ ∃ x ∈ s, q x := by
  rw [rep, fold_eq, foldl_collect fun b x => hstep x b]
  simp [mem_preorder]

/-- The loop that lists the elements with a test. -/
theorem rep_filter (s : ZSet κ) (p : κ → Bool) :
    (s.rep (fun x ys => if p x then x :: ys else ys) []).Nodup ∧
      ∀ x, x ∈ s.rep (fun x ys => if p x then x :: ys else ys) [] ↔ x ∈ s ∧ p x := by
  have hnodup := s.preorder_nodup
  rw [rep, fold_eq, foldl_filter, List.append_nil]
  refine ⟨List.nodup_reverse.2 (hnodup.filter p), fun x => ?_⟩
  rw [List.mem_reverse, List.mem_filter, mem_preorder]

/-- The loop that deletes every element of a set. -/
theorem mem_rep_del {s t : ZSet κ} : x ∈ s.rep (fun b t => t.del b) t ↔ x ∈ t ∧ x ∉ s := by
  have hfold : ∀ (l : List κ) (t : ZSet κ), x ∈ l.foldl del t ↔ x ∈ t ∧ x ∉ l := by
    intro l
    induction l with
    | nil => simp
    | cons b l ih =>
      intro t
      rw [List.foldl_cons, ih, mem_del, List.mem_cons, not_or, and_assoc]
  rw [rep, fold_eq, hfold, mem_preorder]

/-- A `rep` that returns is a run of its gate. -/
theorem run_of_repM {f : κ → β → Option β} {b b' : β} (h : s.repM f b = some b') :
    Run (fun b x b' => f x b = some b') b s.tree.preorder b' := by
  rw [repM, foldM_eq] at h
  exact Run.of_foldlM h

/-- `all:z-in`. -/
def all (s : ZSet κ) (p : κ → Bool) : Bool := s.tree.all p

@[simp] theorem all_eq_true {p : κ → Bool} : s.all p ↔ ∀ x ∈ s, p x :=
  Tree.all_eq_true p s.tree

/-- `all:z-in` with a test that may crash. -/
def allM (s : ZSet κ) (p : κ → Option Bool) : Option Bool := s.tree.allM p

theorem allM_eq_some_true {p : κ → Option Bool} : s.allM p = some true ↔ ∀ x ∈ s, p x = some true :=
  Tree.allM_eq_some_true p s.tree

/-- `wyt:z-in`. -/
def wyt (s : ZSet κ) : Nat := s.tree.size

/-- `run:z-in`: the images, put one by one. -/
def run {β : Type} [ToNoun β] [DecidableEq β] (s : ZSet κ) (f : κ → β) : ZSet β :=
  s.rep (fun x c => c.put (f x)) ∅

theorem mem_run [ToNoun β] [DecidableEq β] {f : κ → β} {y : β} :
    y ∈ s.run f ↔ ∃ x ∈ s, f x = y := by
  have hcollect := rep_collect (P := fun c : ZSet β => y ∈ c) (q := fun x => f x = y)
    (s := s) (f := fun x c => c.put (f x)) (b := ∅) fun x c => by
      rw [mem_put, eq_comm, or_comm]
  rw [run, hcollect]
  simp

theorem run_congr [ToNoun β] [DecidableEq β] {f g : κ → β}
    (h : ∀ x ∈ s, f x = g x) : s.run f = s.run g :=
  rep_congr fun x hx c => by rw [h x hx]

end ZSet

/-! ### Maps -/

namespace ZMap

variable {κ ν : Type} [ToNoun κ] [DecidableEq κ]

instance [DecidableEq ν] : DecidableEq (ZMap κ ν) := fun s t =>
  decidable_of_iff (s.tree = t.tree) (by cases s; cases t; simp)

/-- `get:z-by`. -/
def get (s : ZMap κ ν) (b : κ) : Option ν := (s.tree.find fst b).map snd

variable {s : ZMap κ ν} {b : κ} {v : ν}

theorem get_eq_some : s.get b = some v ↔ (b, v) ∈ s.tree := by
  rw [get, map_eq_some_iff]
  constructor
  · rintro ⟨⟨b', v'⟩, hx, rfl⟩
    obtain ⟨hm, rfl⟩ := (s.isApt.find_eq_some b _).1 hx
    exact hm
  · intro h
    exact ⟨(b, v), (s.isApt.find_eq_some b _).2 ⟨h, rfl⟩, rfl⟩

@[ext] theorem ext {s t : ZMap κ ν} (h : ∀ b, s.get b = t.get b) : s = t := by
  have hmem : ∀ x, x ∈ s.tree ↔ x ∈ t.tree := by
    rintro ⟨b, v⟩
    rw [← get_eq_some, ← get_eq_some, h]
  obtain ⟨s, hs⟩ := s
  obtain ⟨t, ht⟩ := t
  have hst : s = t := hs.ext ht hmem
  subst hst
  rfl

/-- `~`. -/
def empty : ZMap κ ν := ⟨.nil, trivial⟩

instance : EmptyCollection (ZMap κ ν) := ⟨empty⟩

instance : Inhabited (ZMap κ ν) := ⟨empty⟩

@[simp] theorem get_empty (b : κ) : (∅ : ZMap κ ν).get b = none := rfl

/-- `has:z-by`. -/
def has (s : ZMap κ ν) (b : κ) : Bool := (s.get b).isSome

/-- The descent of `hasM`. -/
def hasFrom (b : κ) : Lib.Tree (κ × ν) → Option Bool
  | .nil => some false
  | .node n l r =>
    if b = n.1 then some true
    else do if ← gorTipM (toNoun b) (toNoun n.1) then hasFrom b l else hasFrom b r

/-- `has:z-by` of a key that may not be one for the hash. -/
def hasM (s : ZMap κ ν) (b : κ) : Option Bool := hasFrom b s.tree

theorem hasFrom_eq_some {t : Lib.Tree (κ × ν)} (hb : basedNoun (toNoun b))
    (hkeys : ∀ n ∈ t, basedNoun (toNoun n.1)) : hasFrom b t = some (t.find fst b).isSome := by
  induction t with
  | nil => rfl
  | node n l r ihl ihr =>
    have hn := hkeys n (by simp)
    have hl := ihl fun m hm => hkeys m (by simp [hm])
    have hr := ihr fun m hm => hkeys m (by simp [hm])
    rw [hasFrom, Tree.find]
    by_cases heq : b = n.1
    · simp [heq]
    · simp only [heq, if_false, gorTipM, hashNounVarlen, hb, hn, if_true]
      rw [hl, hr]
      exact (apply_ite (fun x => some (isSome x)) _ _ _).symm

/-- A lookup among keys that can be hashed returns for a key that can be hashed. -/
theorem hasM_eq_some (hkeys : ∀ x v, s.get x = some v → basedNoun (toNoun x))
    (hb : basedNoun (toNoun b) ∨ s = ∅) : s.hasM b = some (s.has b) := by
  rcases hb with hb | rfl
  · rw [hasM, hasFrom_eq_some hb fun n hn => hkeys n.1 n.2 (get_eq_some.2 hn), ZMap.has, get,
      isSome_map]
  · rfl

/-- It crashes for any other, as soon as there is a key to compare it with. -/
theorem hasM_eq_none (hkeys : ∀ x v, s.get x = some v → basedNoun (toNoun x))
    (hb : ¬ basedNoun (toNoun b)) (hs : s ≠ ∅) : s.hasM b = none := by
  obtain ⟨t, ht⟩ := s
  cases t with
  | nil => exact absurd rfl hs
  | node n l r =>
    have hne : b ≠ n.1 := by
      rintro rfl
      exact hb (hkeys n.1 n.2 (get_eq_some.2 (by simp)))
    simp [hasM, hasFrom, hne, gorTipM, hashNounVarlen, hb]

/-- `gut:z-by`. -/
def gut (s : ZMap κ ν) (b : κ) (c : ν) : ν := (s.get b).getD c

/-- `put:z-by`. -/
def put (s : ZMap κ ν) (b : κ) (c : ν) : ZMap κ ν :=
  ⟨s.tree.put fst (b, c), s.isApt.put (b, c)⟩

@[simp] theorem get_put (s : ZMap κ ν) (b : κ) (c : ν) (x : κ) :
    (s.put b c).get x = if x = b then some c else s.get x := by
  apply Option.ext
  intro v
  rw [get_eq_some, put, s.isApt.mem_put]
  split
  · rename_i h
    simp [h, eq_comm]
  · rename_i h
    simp [h, get_eq_some]

/-- `del:z-by`. -/
def del (s : ZMap κ ν) (b : κ) : ZMap κ ν := ⟨s.tree.del fst b, s.isApt.del b⟩

@[simp] theorem get_del (s : ZMap κ ν) (b x : κ) :
    (s.del b).get x = if x = b then none else s.get x := by
  apply Option.ext
  intro v
  rw [get_eq_some, del, s.isApt.mem_del]
  split
  · rename_i h
    simp [h]
  · rename_i h
    simp [h, get_eq_some]

theorem has_eq_true : s.has b ↔ ∃ v, s.get b = some v := by
  rw [has, isSome_iff_exists]

theorem has_eq_false : s.has b = false ↔ s.get b = none := by
  simp [has]

/-- `gas:z-by`. -/
def gas (s : ZMap κ ν) (bs : List (κ × ν)) : ZMap κ ν := bs.foldl (fun s x => s.put x.1 x.2) s

/-- The keys after `gas:z-by`. -/
theorem has_gas {bs : List (κ × ν)} {k : κ} : (s.gas bs).has k ↔ s.has k ∨ k ∈ bs.map fst := by
  induction bs generalizing s with
  | nil => simp [gas]
  | cons x bs ih =>
    show ((s.put x.1 x.2).gas bs).has k ↔ _
    rw [ih, has_eq_true, has_eq_true, List.map_cons, List.mem_cons]
    by_cases hk : k = x.1 <;> simp [hk]

/-- `tap:z-by`. -/
def tap (s : ZMap κ ν) : List (κ × ν) := s.tree.listOnto id []

@[simp] theorem mem_tap {x : κ × ν} : x ∈ s.tap ↔ s.get x.1 = some x.2 := by
  rw [get_eq_some, tap, listOnto_eq]
  simp only [List.map_id_fun, id_eq, List.append_nil, List.mem_reverse]
  rfl

theorem nodup_tap_fst (s : ZMap κ ν) : (s.tap.map fst).Nodup := by
  have h := s.isApt.nodup
  rw [tap, listOnto_eq]
  simpa using h

theorem nodup_tap (s : ZMap κ ν) : s.tap.Nodup := s.nodup_tap_fst.of_map

theorem tap_put_perm (c : ν) (h : s.get b = none) : (s.put b c).tap.Perm ((b, c) :: s.tap) := by
  have hnodup : ((b, c) :: s.tap).Nodup := by simp [h, nodup_tap]
  rw [List.perm_ext_iff_of_nodup (nodup_tap _) hnodup]
  rintro ⟨k, v⟩
  by_cases hk : k = b
  · subst hk
    simp [h, eq_comm]
  · simp [hk]

/-- The entries of a list with different keys, entered into a map without them. -/
theorem tap_gas_perm {l : List (κ × ν)} (hnodup : (l.map fst).Nodup)
    (hfresh : ∀ x ∈ l, s.get x.1 = none) : (s.gas l).tap.Perm (l ++ s.tap) := by
  induction l generalizing s with
  | nil => exact .refl _
  | cons x l ih =>
    rw [List.map_cons, List.nodup_cons] at hnodup
    have hput : ((s.put x.1 x.2).gas l).tap.Perm (l ++ (s.put x.1 x.2).tap) := by
      refine ih hnodup.2 fun y hy => ?_
      have hne : y.1 ≠ x.1 := fun heq => hnodup.1 (heq ▸ List.mem_map_of_mem hy)
      rw [get_put, if_neg hne]
      exact hfresh y (.tail _ hy)
    have htap := tap_put_perm x.2 (hfresh x List.mem_cons_self)
    exact hput.trans ((List.Perm.append_left l htap).trans List.perm_middle)

theorem put_del {c : ν} (h : s.get b = some c) : (s.del b).put b c = s := by
  ext1 x
  by_cases hx : x = b
  · simp [hx, h]
  · simp [hx]

theorem tap_eq_nil : s.tap = [] ↔ s = ∅ := by
  constructor
  · intro h
    ext1 b
    cases hget : s.get b with
    | none => rfl
    | some v =>
      have hmem : (b, v) ∈ s.tap := mem_tap.2 hget
      rw [h] at hmem
      cases hmem
  · rintro rfl
    rfl

theorem forall₂_tap {ν' : Type} {R : κ × ν → κ × ν' → Prop} {t : ZMap κ ν'}
    (h : Tree.Rel R s.tree t.tree) : List.Forall₂ R s.tap t.tap := by
  simpa [tap, listOnto_eq] using h.forall₂_toList

/-- Maps of one shape, with the same keys and related values. -/
theorem rel_get {ν' : Type} {R : ν → ν' → Prop} {t : ZMap κ ν'}
    (h : Tree.Rel (fun x y => x.1 = y.1 ∧ R x.2 y.2) s.tree t.tree) (b : κ) :
    Option.Rel R (s.get b) (t.get b) := by
  have htap := forall₂_tap h
  cases hs : s.get b with
  | none =>
    cases ht : t.get b with
    | none => exact .none
    | some w =>
      obtain ⟨⟨b', v⟩, hmem, rfl, -⟩ :=
        exists_of_mem_forall₂ htap (mem_tap.2 ht : (b, w) ∈ t.tap)
      rw [mem_tap, hs] at hmem
      cases hmem
  | some v =>
    obtain ⟨⟨b', w⟩, hmem, rfl, hR⟩ :=
      exists_of_mem_forall₂ htap.flip (mem_tap.2 hs : (b, v) ∈ s.tap)
    rw [mem_tap.1 hmem]
    exact .some hR

/-- `val:z-by`. -/
def val (s : ZMap κ ν) : List ν := s.tree.listOnto snd []

theorem val_eq (s : ZMap κ ν) : s.val = s.tap.map snd := by
  simp [val, tap, listOnto_eq]

theorem mem_val : v ∈ s.val ↔ ∃ b, s.get b = some v := by
  simp [val_eq]

/-- `key:z-by`. -/
def key (s : ZMap κ ν) : ZSet κ :=
  ⟨s.tree.map fst, (apt_map fst (fun _ => rfl) s.tree).2 s.isApt⟩

@[simp] theorem mem_key : b ∈ s.key ↔ ∃ v, s.get b = some v := by
  rw [← ZSet.mem_tree, key, Tree.mem_map]
  constructor
  · rintro ⟨⟨b', v⟩, hx, rfl⟩
    exact ⟨v, get_eq_some.2 hx⟩
  · rintro ⟨v, hv⟩
    exact ⟨(b, v), get_eq_some.1 hv, rfl⟩

theorem tap_key (s : ZMap κ ν) : s.key.tap = s.tap.map fst := by
  simp [key, ZSet.tap, tap, Tree.listOnto_eq, Tree.toList_map]

/-- `wyt:z-by`. -/
def wyt (s : ZMap κ ν) : Nat := s.tree.size

theorem length_tap (s : ZMap κ ν) : s.tap.length = s.wyt := by
  rw [tap, Tree.listOnto_eq]
  simp [Tree.length_toList, wyt]

/-- `rep:z-by`. -/
def rep {β : Type} (s : ZMap κ ν) (f : κ × ν → β → β) (b : β) : β := s.tree.fold f b

/-- `rep:z-by` with a gate that may crash. -/
def repM {β : Type} (s : ZMap κ ν) (f : κ × ν → β → Option β) (b : β) : Option β :=
  s.tree.foldM f b

theorem mem_preorder : (b, v) ∈ s.tree.preorder ↔ s.get b = some v := by
  rw [get_eq_some]
  exact s.tree.preorder_perm.mem_iff

/-- A `rep` that collects the answers of a test that may crash. -/
theorem of_repM_and_eq_true {p : κ × ν → Option Bool}
    (h : s.repM (fun x a => if a then p x else some false) true = some true)
    (hget : s.get b = some v) : p (b, v) = some true := by
  rw [repM, foldM_eq] at h
  exact (forall_of_foldlM_and h).2 _ (mem_preorder.2 hget)

variable {β : Type}

/-- A `rep` whose gate adds to a property what an entry brings. -/
theorem rep_collect {f : κ × ν → β → β} {b : β} {P : β → Prop}
    {q : κ × ν → Prop} (hstep : ∀ x b, P (f x b) ↔ P b ∨ q x) :
    P (s.rep f b) ↔ P b ∨ ∃ k v, s.get k = some v ∧ q (k, v) := by
  rw [rep, fold_eq, foldl_collect fun b x => hstep x b]
  simp [mem_preorder]

/-- A `rep` that collects a list. -/
theorem mem_rep_cons {g : κ × ν → β} {y : β} :
    y ∈ s.rep (fun x ys => g x :: ys) [] ↔ ∃ b v, s.get b = some v ∧ g (b, v) = y := by
  rw [rep_collect (P := (y ∈ ·)) (q := (g · = y)) fun x ys => by rw [List.mem_cons, eq_comm, or_comm]]
  simp

/-- A `rep` that collects the entries that pass a test. -/
theorem get_rep_filter (s : ZMap κ ν) (p : κ × ν → Bool) (b : κ) :
    (s.rep (fun x (m : ZMap κ ν) => if p x then m.put x.1 x.2 else m) ∅).get b =
      (s.get b).filter fun v => p (b, v) := by
  -- What the entries still to come do not bring is there already.
  suffices hfold : ∀ (l : List (κ × ν)) (m : ZMap κ ν), (∀ x ∈ l, s.get x.1 = some x.2) →
      ((m.get b = none ∧ ∀ v, s.get b = some v → (b, v) ∈ l) ∨
        m.get b = (s.get b).filter fun v => p (b, v)) →
      (l.foldl (fun m x => if p x then m.put x.1 x.2 else m) m).get b =
        (s.get b).filter fun v => p (b, v) by
    rw [rep, fold_eq]
    refine hfold _ ∅ (fun x hx => mem_preorder.1 hx) (.inl ⟨rfl, fun v hv => ?_⟩)
    exact mem_preorder.2 hv
  intro l
  induction l with
  | nil =>
    intro m _ hm
    rcases hm with ⟨hm, hnone⟩ | hm
    · rw [List.foldl_nil, hm]
      cases hv : s.get b with
      | none => rfl
      | some v => simpa using hnone v hv
    · exact hm
  | cons x l ih =>
    intro m hl hm
    refine ih _ (fun y hy => hl y (List.mem_cons_of_mem x hy)) ?_
    have hx : s.get x.1 = some x.2 := hl x (.head _)
    by_cases hb : b = x.1
    · -- The entry of `b` itself.
      right
      subst hb
      rw [hx]
      by_cases hp : p x
      · simp [hp, Option.filter]
      · rcases hm with ⟨hm, -⟩ | hm
        · simp [hp, Option.filter, hm]
        · simp [hp, hm, hx, Option.filter]
    · have hsame : (if p x then m.put x.1 x.2 else m).get b = m.get b := by
        split
        · rw [get_put, if_neg hb]
        · rfl
      rw [hsame]
      refine hm.imp_left fun hm => ⟨hm.1, fun v hv => ?_⟩
      rcases List.mem_cons.1 (hm.2 v hv) with heq | hmem
      · exact absurd (congrArg fst heq) hb
      · exact hmem

/-- `run:z-by` with a gate that may crash. -/
def runM {β : Type} (s : ZMap κ ν) (f : ν → Option β) : Option (ZMap κ β) :=
  match h : s.tree.mapM (fun x => (f x.2).map (x.1, ·)) with
  | none => none
  | some t => some ⟨t, apt_mapM (fun x y hxy => by
    obtain ⟨v, -, rfl⟩ := map_eq_some_iff.1 hxy
    rfl) h s.isApt⟩

variable {f : ν → Option β} {t : ZMap κ β}

theorem runM_eq_some (h : s.runM f = some t) :
    s.tree.mapM (fun x => (f x.2).map (x.1, ·)) = some t.tree := by
  unfold runM at h
  split at h
  · cases h
  · rename_i t' ht'
    cases h
    exact ht'

theorem get_runM (h : s.runM f = some t) (b : κ) : t.get b = (s.get b).bind f := by
  apply Option.ext
  intro v
  rw [get_eq_some, mem_mapM (runM_eq_some h), bind_eq_some_iff]
  constructor
  · rintro ⟨⟨b', w⟩, hx, hw⟩
    obtain ⟨v', hv', heq⟩ := map_eq_some_iff.1 hw
    obtain ⟨rfl, rfl⟩ := Prod.mk.injEq .. ▸ heq
    exact ⟨w, get_eq_some.2 hx, hv'⟩
  · rintro ⟨w, hw, hv⟩
    exact ⟨(b, w), get_eq_some.1 hw, by simp [hv]⟩

/-- The gate returns for every value. -/
theorem exists_of_runM (h : s.runM f = some t) (hget : s.get b = some v) : ∃ w, f v = some w := by
  have hmem : (b, v) ∈ s.tree.toList := get_eq_some.1 hget
  obtain ⟨y, -, hy⟩ := exists_of_mem_forall₂ (toList_mapM (runM_eq_some h)).flip hmem
  obtain ⟨w, hw, -⟩ := map_eq_some_iff.1 hy
  exact ⟨w, hw⟩

/-- `apt:z-by`: the check that the mold makes. -/
def apt (s : ZMap κ ν) : Bool := s.tree.aptTest fst none none

@[simp] theorem apt_eq_true (s : ZMap κ ν) : s.apt := by
  rw [apt, aptTest_eq_true]
  exact ⟨s.isApt, by simp, by simp⟩

end ZMap

/-- `apt:z-in`. -/
def ZSet.apt {κ : Type} [ToNoun κ] [DecidableEq κ] (s : ZSet κ) : Bool :=
  s.tree.aptTest id none none

@[simp] theorem ZSet.apt_eq_true {κ : Type} [ToNoun κ] [DecidableEq κ] (s : ZSet κ) : s.apt := by
  rw [ZSet.apt, aptTest_eq_true]
  exact ⟨s.isApt, by simp, by simp⟩

/-! ### Containers of containers -/

namespace ZJug

variable {κ ν : Type} [ToNoun κ] [DecidableEq κ] [ToNoun ν] [DecidableEq ν]

/-- `get:z-ju`. -/
def get (a : ZMap κ (ZSet ν)) (b : κ) : ZSet ν := (ZMap.get a b).getD ∅

/-- `put:z-ju`. -/
def put (a : ZMap κ (ZSet ν)) (b : κ) (c : ν) : ZMap κ (ZSet ν) := a.put b ((get a b).put c)

/-- `del:z-ju`: a key whose set becomes empty is removed. -/
def del (a : ZMap κ (ZSet ν)) (b : κ) (c : ν) : ZMap κ (ZSet ν) :=
  if (get a b).del c = ∅ then a.del b else a.put b ((get a b).del c)

end ZJug

/-- `put:z-bi`. -/
def ZMip.put {κ κ' ν : Type} [ToNoun κ] [DecidableEq κ] [ToNoun κ'] [DecidableEq κ']
    (a : ZMap κ (ZMap κ' ν)) (b : κ) (c : κ') (d : ν) : ZMap κ (ZMap κ' ν) :=
  a.put b ((a.gut b ∅).put c d)

/-! ### Containers as nouns -/

/-- `[n l r]`, or `~`. -/
def treeNoun {α : Type} [ToNoun α] : Lib.Tree α → Noun
  | .nil => .atom 0
  | .node n l r => .cell (toNoun n) (.cell (treeNoun l) (treeNoun r))

instance {α : Type} [ToNoun α] : ToNoun (Lib.Tree α) where
  toNoun := treeNoun
  toNoun_injective := by
    intro s
    induction s with
    | nil =>
      intro t h
      cases t <;> simp_all [treeNoun]
    | node n l r ihl ihr =>
      intro t h
      cases t with
      | nil => simp [treeNoun] at h
      | node m l' r' =>
        simp only [treeNoun, Noun.cell.injEq, toNoun_inj] at h
        rw [h.1, ihl h.2.1, ihr h.2.2]

instance {κ : Type} [ToNoun κ] : ToNoun (ZSet κ) where
  toNoun s := toNoun s.tree
  toNoun_injective := by
    rintro ⟨s, hs⟩ ⟨t, ht⟩ h
    simpa [toNoun_inj] using h

instance {κ ν : Type} [ToNoun κ] [ToNoun ν] : ToNoun (ZMap κ ν) where
  toNoun s := toNoun s.tree
  toNoun_injective := by
    rintro ⟨s, hs⟩ ⟨t, ht⟩ h
    simpa [toNoun_inj] using h

end Nockchain

/-!
## Sets by key

A jug is read through `get:z-ju`, which does not tell a missing key from an
empty set. `NoEmpty` says that there are no empty sets in it; `put:z-ju` and
`del:z-ju` keep that, and then a key is there exactly when something is under
it. The second half is about the loops that put or delete one value under every
key of a set.
-/

namespace Nockchain.ZJug

open Lib

variable {κ ν : Type} [Tip5] [ToNoun κ] [DecidableEq κ] [ToNoun ν] [DecidableEq ν]
  {a : ZMap κ (ZSet ν)}

/-! ### One key -/

variable {c x : ν}

theorem mem_get_put {b b' : κ} : x ∈ get (put a b c) b' ↔ x ∈ get a b' ∨ b' = b ∧ x = c := by
  by_cases hb : b' = b
  · subst hb
    simp [get, put, or_comm]
  · simp [get, put, hb]

theorem mem_get_del {b b' : κ} : x ∈ get (del a b c) b' ↔ x ∈ get a b' ∧ ¬ (b' = b ∧ x = c) := by
  by_cases hb : b' = b
  · subst hb
    unfold del
    split
    · rename_i hempty
      have hnone : ∀ y ∈ get a b', y = c := by
        intro y hy
        by_contra hne
        have hmem : y ∈ (get a b').del c := ZSet.mem_del.2 ⟨hy, hne⟩
        rw [hempty] at hmem
        exact ZSet.not_mem_empty y hmem
      have hget : get (a.del b') b' = ∅ := by simp [get]
      simp only [hget, ZSet.not_mem_empty, true_and, false_iff, not_and, not_not]
      exact hnone x
    · have hget : get (a.put b' ((get a b').del c)) b' = (get a b').del c := by simp [get]
      simp [hget]
  · have hget : get (del a b c) b' = get a b' := by
      unfold del
      split <;> simp [get, hb]
    simp [hget, hb]

/-- Deleting the only value under a key. -/
theorem forall_get_del {b b' : κ} {c : ν} :
    (∀ x ∈ get (del a b c) b', x = c) ↔ ∀ x ∈ get a b', x = c := by
  simp only [mem_get_del]
  grind

variable {b : κ}

theorem get_del_eq_empty {c : ν} : get (del a b c) b = ∅ ↔ ∀ x ∈ get a b, x = c := by
  simp only [ZSet.eq_empty_iff, mem_get_del]
  grind

/-- No key has an empty set. -/
def NoEmpty (a : ZMap κ (ZSet ν)) : Prop := ∀ b s, a.get b = some s → s ≠ ∅

omit [DecidableEq ν] in
theorem NoEmpty.has_iff (h : NoEmpty a) : a.has b ↔ get a b ≠ ∅ := by
  rw [ZMap.has, get]
  cases hb : a.get b with
  | none => simp
  | some s => simpa using h b s hb

theorem NoEmpty.put (h : NoEmpty a) (b : κ) (c : ν) : NoEmpty (put a b c) := by
  intro b' s hs hempty
  rw [ZJug.put, ZMap.get_put] at hs
  split at hs
  · have hmem : c ∈ s := by
      cases hs
      simp
    rw [hempty] at hmem
    exact ZSet.not_mem_empty c hmem
  · exact h b' s hs hempty

theorem NoEmpty.del (h : NoEmpty a) (b : κ) (c : ν) : NoEmpty (del a b c) := by
  intro b' s hs
  unfold ZJug.del at hs
  split at hs
  · rw [ZMap.get_del] at hs
    split at hs
    · cases hs
    · exact h b' s hs
  · rename_i hne
    rw [ZMap.get_put] at hs
    split at hs
    · rwa [← Option.some.inj hs]
    · exact h b' s hs

/-! ### Every key of a list -/

theorem mem_get_foldl_put {l : List κ} :
    x ∈ get (l.foldl (fun a b => put a b c) a) b ↔ x ∈ get a b ∨ b ∈ l ∧ x = c := by
  induction l generalizing a with
  | nil => simp
  | cons b' l ih =>
    rw [List.foldl_cons, ih, mem_get_put, List.mem_cons]
    tauto

theorem mem_get_foldl_del {l : List κ} :
    x ∈ get (l.foldl (fun a b => del a b c) a) b ↔ x ∈ get a b ∧ ¬ (b ∈ l ∧ x = c) := by
  induction l generalizing a with
  | nil => simp
  | cons b' l ih =>
    rw [List.foldl_cons, ih, mem_get_del, List.mem_cons]
    tauto

/-- The loop that puts a value under every key of a set. -/
theorem mem_get_rep_put {s : ZSet κ} :
    x ∈ get (s.rep (fun b a => put a b c) a) b ↔ x ∈ get a b ∨ b ∈ s ∧ x = c := by
  rw [ZSet.rep, Tree.fold_eq, mem_get_foldl_put, ZSet.mem_preorder]

/-- The loop that deletes a value under every key of a set. -/
theorem mem_get_rep_del {s : ZSet κ} :
    x ∈ get (s.rep (fun b a => del a b c) a) b ↔ x ∈ get a b ∧ ¬ (b ∈ s ∧ x = c) := by
  rw [ZSet.rep, Tree.fold_eq, mem_get_foldl_del, ZSet.mem_preorder]

theorem NoEmpty.rep_put (h : NoEmpty a) (s : ZSet κ) (c : ν) :
    NoEmpty (s.rep (fun b a => ZJug.put a b c) a) :=
  ZSet.rep_induction NoEmpty h fun b _ _ ha => ha.put b c

theorem NoEmpty.rep_del (h : NoEmpty a) (s : ZSet κ) (c : ν) :
    NoEmpty (s.rep (fun b a => ZJug.del a b c) a) :=
  ZSet.rep_induction NoEmpty h fun b _ _ ha => ha.del b c

end Nockchain.ZJug

/-!
## Sums over containers

The sum of a weight over the elements of a set or the values of a map, and what
each operation does to it. The sum does not depend on the order in which `tap`
lists the elements.
-/

namespace Nockchain

open Lib

variable [Tip5]

namespace ZSet

variable {κ : Type} [ToNoun κ] [DecidableEq κ]

/-- The sum of a weight over a set. -/
def total (f : κ → Nat) (s : ZSet κ) : Nat := (s.tap.map f).sum

@[simp] theorem total_empty (f : κ → Nat) : total f (∅ : ZSet κ) = 0 := rfl

theorem total_put (f : κ → Nat) {s : ZSet κ} {b : κ} (h : b ∉ s) :
    total f (s.put b) = total f s + f b := by
  rw [total, ((tap_put_perm h).map f).sum_eq, List.map_cons, List.sum_cons, total, Nat.add_comm]

/-- The set of a list without duplicates has the sum of the list. -/
theorem total_gas (f : κ → Nat) {bs : List κ} (hnodup : bs.Nodup) :
    total f (gas ∅ bs) = (bs.map f).sum := by
  have hperm : (gas ∅ bs).tap.Perm bs := by
    rw [List.perm_ext_iff_of_nodup (nodup_tap _) hnodup]
    simp
  rw [total, (hperm.map f).sum_eq]

/-- The set of a list with duplicates has less, where every element weighs something. -/
theorem total_gas_lt (f : κ → Nat) {bs : List κ} (hpos : ∀ b ∈ bs, 0 < f b)
    (hdup : ¬ bs.Nodup) : total f (gas ∅ bs) < (bs.map f).sum := by
  have hsubset : (gas ∅ bs).tap ⊆ bs := fun b hb => by simpa using hb
  obtain ⟨l, hl, hsub⟩ := List.subperm_of_subset (nodup_tap _) hsubset
  obtain ⟨rest, hrest⟩ := hsub.exists_perm_append
  have hperm : bs.Perm ((gas ∅ bs).tap ++ rest) := hrest.trans (hl.append_right rest)
  have hrest : rest ≠ [] := by
    rintro rfl
    rw [List.append_nil] at hperm
    exact hdup (hperm.nodup_iff.2 (nodup_tap _))
  obtain ⟨b, rest', rfl⟩ := List.exists_cons_of_ne_nil hrest
  have hb : 0 < f b := hpos b (hperm.mem_iff.2 (List.mem_append_right _ List.mem_cons_self))
  rw [total, (hperm.map f).sum_eq, List.map_append, List.sum_append, List.map_cons, List.sum_cons]
  omega

end ZSet

namespace ZMap

variable {κ ν : Type} [ToNoun κ] [DecidableEq κ]

/-- The sum of a weight over the values of a map. -/
def total (f : ν → Nat) (s : ZMap κ ν) : Nat := (s.val.map f).sum

@[simp] theorem total_empty (f : ν → Nat) : total f (∅ : ZMap κ ν) = 0 := rfl

theorem total_eq (f : ν → Nat) (s : ZMap κ ν) : total f s = (s.tap.map fun x => f x.2).sum := by
  rw [total, val_eq, List.map_map]
  rfl

variable {s : ZMap κ ν}

theorem total_put (f : ν → Nat) {b : κ} (c : ν) (h : s.get b = none) :
    total f (s.put b c) = total f s + f c := by
  have hperm := (tap_put_perm c h).map fun x => f x.2
  rw [total_eq, hperm.sum_eq, List.map_cons, List.sum_cons, total_eq, Nat.add_comm]

theorem total_del (f : ν → Nat) {b : κ} {c : ν} (h : s.get b = some c) :
    total f (s.del b) + f c = total f s := by
  have hput := total_put f (s := s.del b) (b := b) c (by simp)
  rw [put_del h] at hput
  omega

/-- Replacing a value. -/
theorem total_put_of_get (f : ν → Nat) {b : κ} {c : ν} (d : ν)
    (h : s.get b = some c) : total f (s.put b d) + f c = total f s + f d := by
  have hput : s.put b d = (s.del b).put b d := by
    ext1 x
    by_cases hx : x = b <;> simp [hx]
  have hfresh := total_put f (s := s.del b) (b := b) d (by simp)
  have hdel := total_del f h
  rw [hput]
  omega

/-- A gate that keeps the weight of each value keeps the sum. -/
theorem total_runM {β : Type} {f : ν → Option β} {g : β → Nat} {g' : ν → Nat}
    {t : ZMap κ β} (hg : ∀ v w, f v = some w → g w = g' v) (h : s.runM f = some t) :
    total g t = total g' s := by
  have hl := Tree.toList_mapM (runM_eq_some h)
  have hsum : (t.tree.toList.map fun x => g x.2) = s.tree.toList.map fun x => g' x.2 := by
    rw [← List.forall₂_eq_eq_eq, List.forall₂_map_left_iff, List.forall₂_map_right_iff]
    refine hl.flip.imp ?_
    rintro ⟨b', w⟩ ⟨b, v⟩ hx
    obtain ⟨w', hw', heq⟩ := Option.map_eq_some_iff.1 hx
    cases heq
    exact hg v w hw'
  rw [total_eq, total_eq, tap, tap, Tree.listOnto_eq, Tree.listOnto_eq]
  simp [hsum]

end ZMap

end Nockchain
