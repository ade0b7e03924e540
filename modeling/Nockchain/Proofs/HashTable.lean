import Nockchain.Lib.Bits
import Nockchain.Tip5

/-!
# `Nockchain.Proofs.HashTable`: a hash without collisions

`CollisionFree` is an idealisation: the digests of field elements are finitely
many and the nouns are not. It is not vacuous, though. `tableTip5` hashes the
nouns and the pairs of digests that stand in two tables to small digests, of
field elements, and numbers all others behind them; it has no collisions
(`collisionFree_tableTip5`). With the tables of one computation it stands for a
hash whose collisions that computation does not meet. For a run that is too long
for tables there is `mixTip5`.
-/

set_option autoImplicit false

namespace Nockchain

open Lib Digest

/-! ### Numbering nouns and digests -/

/-- Two numbers in one: the width of the first in unary, the first, the second. -/
def glue (a b : Nat) : Nat := 2 ^ width a * (1 + 2 * (a + 2 ^ width a * b))

theorem two_pow_mul_odd_inj {v w x y : Nat} (h : 2 ^ v * (1 + 2 * x) = 2 ^ w * (1 + 2 * y)) :
    v = w ∧ x = y := by
  induction v generalizing w with
  | zero =>
    cases w with
    | zero => omega
    | succ w =>
      rw [Nat.pow_succ, Nat.mul_comm (2 ^ w) 2, Nat.mul_assoc] at h
      omega
  | succ v ih =>
    cases w with
    | zero =>
      rw [Nat.pow_succ, Nat.mul_comm (2 ^ v) 2, Nat.mul_assoc] at h
      omega
    | succ w =>
      rw [Nat.pow_succ, Nat.mul_comm (2 ^ v) 2, Nat.mul_assoc, Nat.pow_succ,
        Nat.mul_comm (2 ^ w) 2, Nat.mul_assoc] at h
      obtain ⟨rfl, rfl⟩ := ih (Nat.eq_of_mul_eq_mul_left (by decide) h)
      exact ⟨rfl, rfl⟩

theorem glue_inj {a b a' b' : Nat} (h : glue a b = glue a' b') : a = a' ∧ b = b' := by
  obtain ⟨hw, hab⟩ := two_pow_mul_odd_inj h
  rw [← hw] at hab
  have ha : a < 2 ^ width a := lt_two_pow_width a
  have ha' : a' < 2 ^ width a := hw ▸ lt_two_pow_width a'
  have hmod := congrArg (· % 2 ^ width a) hab
  have hdiv := congrArg (· / 2 ^ width a) hab
  simp only [Nat.add_mul_mod_self_left, Nat.mod_eq_of_lt ha, Nat.mod_eq_of_lt ha'] at hmod
  simp only [Nat.add_mul_div_left _ _ (Nat.two_pow_pos _), Nat.div_eq_of_lt ha,
    Nat.div_eq_of_lt ha', Nat.zero_add] at hdiv
  exact ⟨hmod, hdiv⟩

/-- A number for each noun. -/
def Noun.code : Noun → Nat
  | .atom a => 2 * a
  | .cell h t => 2 * glue h.code t.code + 1

theorem Noun.code_injective : Function.Injective Noun.code := by
  intro m n h
  induction m generalizing n with
  | atom a =>
    cases n with
    | atom b =>
      have hab : 2 * a = 2 * b := h
      rw [show a = b by omega]
    | cell h' t' =>
      have hne : 2 * a = 2 * glue h'.code t'.code + 1 := h
      omega
  | cell x y ihx ihy =>
    cases n with
    | atom b =>
      have hne : 2 * glue x.code y.code + 1 = 2 * b := h
      omega
    | cell x' y' =>
      have hglue : 2 * glue x.code y.code + 1 = 2 * glue x'.code y'.code + 1 := h
      obtain ⟨hx, hy⟩ := glue_inj (show glue x.code y.code = glue x'.code y'.code by omega)
      rw [ihx hx, ihy hy]

/-- A number for each digest. -/
def Digest.code (d : Digest) : Nat := glue d.a (glue d.b (glue d.c (glue d.d d.e)))

theorem Digest.code_injective : Function.Injective code := by
  rintro ⟨a, b, c, d, e⟩ ⟨a', b', c', d', e'⟩ h
  obtain ⟨ha, h⟩ := glue_inj h
  obtain ⟨hb, h⟩ := glue_inj h
  obtain ⟨hc, h⟩ := glue_inj h
  obtain ⟨hd, he⟩ := glue_inj h
  simp_all

/-! ### The table -/

/-- The place of an element in a table, or a place behind it. -/
def rank {α : Type} [DecidableEq α] (table : List α) (code : α → Nat) (x : α) : Nat :=
  if x ∈ table then table.idxOf x else table.length + code x

theorem rank_injective {α : Type} [DecidableEq α] (table : List α) {code : α → Nat}
    (hcode : Function.Injective code) : Function.Injective (rank table code) := by
  intro x y h
  unfold rank at h
  split at h
  · rename_i hx
    split at h
    · exact (List.idxOf_inj hx).1 h
    · have hlt := List.idxOf_lt_length_iff.2 hx
      omega
  · split at h
    · rename_i hy
      have hlt := List.idxOf_lt_length_iff.2 hy
      omega
    · exact hcode (by omega)

/-- The digest of one small number. -/
def Digest.ofNat (n : Nat) : Digest := ⟨n, 0, 0, 0, 0⟩

theorem Digest.toAtom_ofNat (n : Nat) : (ofNat n).toAtom = n := by
  simp [ofNat, toAtom]

/-- A hash by tables of nouns and of pairs of digests: even numbers for nouns, odd ones for
pairs. -/
@[reducible] def tableTip5 (leaves : List Noun) (pairs : List (Digest × Digest)) : Tip5 where
  sponge n := .ofNat (2 * rank leaves Noun.code n)
  sponge10 c d := .ofNat (2 * rank pairs (fun x => glue x.1.code x.2.code) (c, d) + 1)
  sponge_toAtom m n h := by
    rw [toAtom_ofNat, toAtom_ofNat] at h
    rw [h]
  sponge10_toAtom c d c' d' h := by
    rw [toAtom_ofNat, toAtom_ofNat] at h
    rw [h]

/-- Tabled or not, different inputs have different numbers. -/
theorem collisionFree_tableTip5 (leaves : List Noun) (pairs : List (Digest × Digest)) :
    @CollisionFree (tableTip5 leaves pairs) := by
  have hofNat : ∀ {m n : Nat}, ofNat m = ofNat n → m = n := by
    intro m n h
    exact congrArg a h
  have hpair : Function.Injective fun x : Digest × Digest => glue x.1.code x.2.code := by
    rintro ⟨c, d⟩ ⟨c', d'⟩ h
    obtain ⟨hc, hd⟩ := glue_inj h
    exact Prod.ext (code_injective hc) (code_injective hd)
  refine @CollisionFree.mk (tableTip5 leaves pairs) ?_ ?_ ?_
  · intro m n _ _ h
    have hrank := hofNat h
    exact rank_injective leaves Noun.code_injective (by omega)
  · intro c d c' d' h
    have hrank := hofNat h
    have hcd : (c, d) = (c', d') := rank_injective pairs hpair (by omega)
    exact Prod.mk.injEq .. ▸ hcd
  · intro n c d _ h
    have hrank := hofNat h
    omega

/-! ### A hash by arithmetic -/

/-- A number for every noun. -/
def mixNoun : Noun → Nat
  | .atom a => (a * 7 + 3) % 999983
  | .cell m n => (mixNoun m * 31 + mixNoun n * 17 + 5) % 999983

/-- A hash that is computed in a few steps, for runs that are long. It has collisions. -/
@[reducible] def mixTip5 : Tip5 where
  sponge n := .ofNat (mixNoun n)
  sponge10 c d := .ofNat ((c.a * 101 + d.a * 37 + 11) % 999983)
  sponge_toAtom m n h := by
    rw [toAtom_ofNat, toAtom_ofNat] at h
    rw [h]
  sponge10_toAtom c d c' d' h := by
    rw [toAtom_ofNat, toAtom_ofNat] at h
    rw [h]

/-! ### Runs -/

/-- A run that ends where a check holds, in one evaluation. -/
theorem eq_some_getD_of_any {α : Type} {x : Option α} {d : α} (p : α → Prop) [DecidablePred p]
    (h : x.any (fun y => decide (p y))) : x = some (x.getD d) ∧ p (x.getD d) := by
  cases x with
  | none => cases h
  | some y => exact ⟨rfl, of_decide_eq_true h⟩

theorem exists_some_of_any {α : Type} {x : Option α} (p : α → Prop) [DecidablePred p]
    (h : x.any (fun y => decide (p y))) : ∃ y, x = some y ∧ p y := by
  cases x with
  | none => cases h
  | some y => exact ⟨y, rfl, of_decide_eq_true h⟩

theorem exists_ok_of_any {ε α : Type} {x : Option (Except ε α)} (h : x.any Except.isOk) :
    ∃ y, x = some (.ok y) := by
  cases x with
  | none => cases h
  | some res =>
    cases res with
    | error e => cases h
    | ok y => exact ⟨y, rfl⟩

end Nockchain
