import Nockchain.Lib.Fold
import Nockchain.Math.Belt

/-!
# `Nockchain.Proofs.Math.Hash`: what is hashed can be read back

Of a Dyck word and the leaves behind it there is one noun that they come from: a
word starts with a `0` exactly if its noun is a cell, and the `1` after the word of
the head says where the tail begins. The number of leaves in front says where the
leaves end, and the last `1` of a padded input where the padding starts.
-/

set_option autoImplicit false

namespace Nockchain.Math

open Nockchain.Lib List Option

/-! ### Leaves and shape -/

/-- The Dyck word, read in order. -/
def shape : Noun → List Nat
  | .atom _ => []
  | .cell head tail => 0 :: (shape head ++ 1 :: shape tail)

theorem dyck_eq (t : Noun) : dyck t = shape t := by
  have hrec : ∀ vec, dyckRecursive t vec = (shape t).reverse ++ vec := by
    induction t with
    | atom a => exact fun vec => rfl
    | cell head tail ihh iht =>
      intro vec
      simp [dyckRecursive, shape, ihh, iht]
  simp [dyck, hrec]

/-- The leaves, from left to right. -/
def leaves : Noun → List Nat
  | .atom a => [a]
  | .cell head tail => leaves head ++ leaves tail

variable {m n t : Noun} {vec : List Nat}

theorem eq_leaves_of_doLeafSequence {vec' : List Nat} (h : doLeafSequence t vec = some vec') :
    vec' = vec ++ leaves t := by
  induction t generalizing vec vec' with
  | atom a =>
    simp only [doLeafSequence, ite_none_right_eq_some, some.injEq] at h
    exact h.2.symm
  | cell head tail ihh iht =>
    obtain ⟨mid, hmid, h⟩ := bind_eq_some_iff.1 h
    rw [iht h, ihh hmid, leaves, append_assoc]

theorem isSome_doLeafSequence (h : basedNoun t) (vec : List Nat) :
    (doLeafSequence t vec).isSome := by
  induction t generalizing vec with
  | atom a =>
    have hword : a < 2 ^ 64 := (of_decide_eq_true h).trans (by decide)
    rw [doLeafSequence, if_pos hword]
    rfl
  | cell head tail ihh iht =>
    rw [basedNoun, Bool.and_eq_true] at h
    obtain ⟨mid, hmid⟩ := isSome_iff_exists.1 (ihh h.1 vec)
    rw [doLeafSequence, hmid]
    exact iht h.2 mid

/-- A word and leaves are read back in one pass. What follows the word of a head is a `1`, and what
follows the whole is nothing, so that it never starts another noun. -/
theorem decode {x y u v : List Nat} (hx : x.head? ≠ some 0) (hy : y.head? ≠ some 0)
    (hshape : shape m ++ x = shape n ++ y) (hleaves : leaves m ++ u = leaves n ++ v) :
    m = n ∧ x = y ∧ u = v := by
  induction m generalizing n x y u v with
  | atom a =>
    cases n with
    | atom b =>
      simp only [leaves, cons_append, nil_append, cons.injEq] at hleaves
      exact ⟨congrArg _ hleaves.1, hshape, hleaves.2⟩
    | cell head tail =>
      rw [show x = _ from hshape] at hx
      exact absurd rfl hx
  | cell head tail ihh iht =>
    cases n with
    | atom b =>
      rw [← show _ = y from hshape] at hy
      exact absurd rfl hy
    | cell head' tail' =>
      simp only [shape, leaves, cons_append, append_assoc, cons.injEq,
        true_and] at hshape hleaves
      obtain ⟨rfl, hshape, hleaves⟩ := ihh (by simp) (by simp) hshape hleaves
      obtain ⟨rfl, hrest⟩ := iht hx hy (cons.inj hshape).2 hleaves
      exact ⟨rfl, hrest⟩

theorem eq_of_hashNounVarlenArg {w : List Nat} (hm : hashNounVarlenArg m = some w)
    (hn : hashNounVarlenArg n = some w) : m = n := by
  obtain ⟨leaf, hleaf, hm⟩ := bind_eq_some_iff.1 hm
  obtain ⟨leaf', hleaf', hn⟩ := bind_eq_some_iff.1 hn
  obtain rfl : leaf = leaves m := eq_leaves_of_doLeafSequence hleaf
  obtain rfl : leaf' = leaves n := eq_leaves_of_doLeafSequence hleaf'
  have hwords := some.inj (hm.trans hn.symm)
  rw [dyck_eq, dyck_eq] at hwords
  obtain ⟨hlength, hwords⟩ := cons.inj hwords
  obtain ⟨hleaves, hshape⟩ := append_inj hwords hlength
  refine (decode (x := []) (y := []) (u := []) (v := []) (by simp) (by simp) ?_ ?_).1
  · rw [hshape]
  · rw [hleaves]

/-! ### Belts -/

/-- A belt keeps the atom it is read from. -/
theorem map_val_of_fromAtom {l : List Nat} {bs : List Belt} (h : l.mapM Belt.fromAtom = some bs) :
    bs.map (fun b => b.val.toNat) = l := by
  rw [← map_id l]
  refine (map_eq_of_forall₂ (forall₂_of_mapM h) fun a b hb => ?_).symm
  simp only [Belt.fromAtom, ite_none_right_eq_some, some.injEq] at hb
  obtain ⟨ha, rfl⟩ := hb
  exact (UInt64.toNat_ofNat_of_lt (ha.trans (by decide))).symm

theorem eq_of_zeros {i j : Nat} {x y : List Belt}
    (h : .replicate i ⟨0⟩ ++ ⟨1⟩ :: x = .replicate j ⟨0⟩ ++ (⟨1⟩ :: y : List Belt)) : x = y := by
  induction i generalizing j with
  | zero => cases j <;> simp_all [replicate_succ]
  | succ i ih =>
    cases j with
    | zero => simp [replicate_succ] at h
    | succ j => exact ih (cons.inj h).2

/-- The input of a hash determines what is hashed: the words of `hash_noun_varlen` the noun, as soon
as its atoms are field elements, its belts the noun, and the padded belts of `hash_varlen` the list
of belts. -/
theorem hashed_injective :
    (∀ m n, basedNoun m → basedNoun n → hashNounVarlenArg m = hashNounVarlenArg n → m = n) ∧
      (∀ m n l, hashNounVarlenInput m = some l → hashNounVarlenInput n = some l → m = n) ∧
      ∀ xs ys, padded xs = padded ys → xs = ys := by
  refine ⟨fun m n hm _ h => ?_, fun m n l hm hn => ?_, fun xs ys h => ?_⟩
  · obtain ⟨leaf, hleaf⟩ := isSome_iff_exists.1 (isSome_doLeafSequence hm [])
    have hwords : hashNounVarlenArg m = some (leaf.length :: (leaf ++ dyck m)) := by
      rw [hashNounVarlenArg, leafSequence, hleaf]
      rfl
    exact eq_of_hashNounVarlenArg hwords (h ▸ hwords)
  · obtain ⟨w, hw, hm⟩ := bind_eq_some_iff.1 hm
    obtain ⟨w', hw', hn⟩ := bind_eq_some_iff.1 hn
    obtain rfl := (map_val_of_fromAtom hm).symm.trans (map_val_of_fromAtom hn)
    exact eq_of_hashNounVarlenArg hw hw'
  · have hrev := congrArg reverse h
    simp only [padded, tip5PadVecbelt, reverse_append, reverse_replicate] at hrev
    exact reverse_injective (eq_of_zeros hrev)

/-- A noun is the only one with its words or belts, and the empty list the only one with its padded
input. -/
theorem hashed_injective_pair :
    (∀ n, basedNoun n → hashNounVarlenArg n = some [2, 5, 7, 0, 1] →
      n = .cell (.atom 5) (.atom 7)) ∧
    (∀ n, hashNounVarlenInput n = some [⟨2⟩, ⟨5⟩, ⟨7⟩, ⟨0⟩, ⟨1⟩] → n = .cell (.atom 5) (.atom 7)) ∧
    ∀ xs, padded xs = ⟨1⟩ :: .replicate 9 ⟨0⟩ → xs = [] :=
  ⟨fun n hn h => hashed_injective.1 n _ hn (by decide) h,
    fun n h => hashed_injective.2.1 n _ _ h (by decide), fun xs => hashed_injective.2.2 xs []⟩

end Nockchain.Math
