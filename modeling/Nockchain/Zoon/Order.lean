import Nockchain.Tip5
import Nockchain.Lib.Treap

/-!
# `Nockchain.Zoon.Order`: the orders of the sets and maps

The treaps of `zoon.hoon` keep the chain's sets and maps. Their search order is
by the hash of the key (`gor-tip`), the heap order by the hash of that hash
(`mor-tip`), and both fall back to the shape of the noun (`dor-tip`) when hashes
are equal. Both are total orders whether or not the hash has collisions, which
makes a key type of nouns a `TreapOrder`.

Comparing keys hashes them, which in the source crashes on a key that is not
made of field elements. The orders here are defined on every noun; `gorTipM`
has the crash, for lookups of keys that nothing has checked yet.
-/

set_option autoImplicit false

namespace Nockchain

open Lib

/-! ### The orders -/

/-- `dor-tip`: atoms by value before cells, cells by head and then tail. -/
def dorTip : Noun → Noun → Bool
  | .atom a, .atom b => if a = b then true else a < b
  | .atom _, .cell _ _ => true
  | .cell _ _, .atom _ => false
  | .cell h t, .cell h' t' => if h = h' then dorTip t t' else dorTip h h'

theorem dorTip_total (a b : Noun) : dorTip a b || dorTip b a := by
  fun_induction dorTip a b with
  | case1 | case3 | case4 => simp [dorTip]
  | case2 a b hne =>
    simp only [dorTip, Ne.symm hne, if_false, Bool.or_eq_true, decide_eq_true_eq]
    omega
  | case5 h t t' iht => simpa [dorTip] using iht
  | case6 h t h' t' hne ihh => simpa [dorTip, Ne.symm hne] using ihh

theorem dorTip_antisymm (a b : Noun) (hab : dorTip a b) (hba : dorTip b a) : a = b := by
  fun_induction dorTip a b with
  | case1 => rfl
  | case2 a b hne =>
    simp only [dorTip, Ne.symm hne, if_false, decide_eq_true_eq] at hab hba
    omega
  | case3 => simp [dorTip] at hba
  | case4 => simp at hab
  | case5 h t t' iht =>
    simp only [dorTip, if_true] at hba
    rw [iht hab hba]
  | case6 h t h' t' hne ihh =>
    simp only [dorTip, Ne.symm hne, if_false] at hba
    exact absurd (ihh hab hba) hne

/-- An order that goes by the heads of two cells, and by the tails where the heads are equal, is
transitive if it is where one of the three nouns is an atom. -/
theorem trans_of_cells {r : Noun → Noun → Bool} (hantisymm : ∀ a b, r a b → r b a → a = b)
    (hcell : ∀ h t h' t', r (.cell h t) (.cell h' t') = if h = h' then r t t' else r h h')
    (hatom : ∀ a b c, ¬ (a.isCell ∧ b.isCell ∧ c.isCell) → r a b → r b c → r a c) {a b c : Noun}
    (hab : r a b) (hbc : r b c) : r a c := by
  induction a generalizing b c with
  | atom a => exact hatom _ _ _ (by simp) hab hbc
  | cell h t ihh iht =>
    cases b with
    | atom b => exact hatom _ _ _ (by simp) hab hbc
    | cell h' t' =>
      cases c with
      | atom c => exact hatom _ _ _ (by simp) hab hbc
      | cell h'' t'' =>
        rw [hcell] at *
        -- The heads decide unless they are equal; equal ends force all three equal.
        by_cases h1 : h = h'
        · subst h1
          by_cases h2 : h = h''
          · simp only [h2, if_true] at *
            exact iht hab hbc
          · simp only [h2, if_false] at *
            exact hbc
        · rw [if_neg h1] at hab
          by_cases h2 : h' = h''
          · subst h2
            rwa [if_neg h1]
          rw [if_neg h2] at hbc
          by_cases h3 : h = h''
          · subst h3
            exact absurd (hantisymm _ _ hab hbc) h1
          · rw [if_neg h3]
            exact ihh hab hbc

theorem dorTip_trans (a b c : Noun) (hab : dorTip a b) (hbc : dorTip b c) : dorTip a c := by
  refine trans_of_cells dorTip_antisymm (fun _ _ _ _ => by rw [dorTip]) ?_ hab hbc
  rintro (a | _) (b | _) (c | _) hcell hab hbc <;> simp_all [dorTip]
  grind

/-- `lth-tip`. -/
def lthTip (a b : Digest) : Bool := a.toAtom < b.toAtom

/-- Order nouns by a digest, and by `dor-tip` where the digests are equal. -/
def tipOrder (f : Noun → Digest) (a b : Noun) : Bool :=
  if f a = f b then dorTip a b else lthTip (f a) (f b)

section TipOrder

variable {f : Noun → Digest} (hf : ∀ a b, (f a).toAtom = (f b).toAtom → f a = f b)

include hf

theorem tipOrder_total (a b : Noun) : tipOrder f a b || tipOrder f b a := by
  by_cases h : f a = f b
  · simpa [tipOrder, h] using dorTip_total a b
  · have hne : (f a).toAtom ≠ (f b).toAtom := fun he => h (hf a b he)
    simp only [tipOrder, lthTip, h, Ne.symm h, if_false, Bool.or_eq_true, decide_eq_true_eq]
    omega

omit hf

theorem tipOrder_antisymm (a b : Noun) (hab : tipOrder f a b) (hba : tipOrder f b a) : a = b := by
  by_cases h : f a = f b
  · simp only [tipOrder, h, if_true] at hab hba
    exact dorTip_antisymm a b hab hba
  · simp only [tipOrder, lthTip, h, Ne.symm h, if_false, decide_eq_true_eq] at hab hba
    omega

theorem tipOrder_trans (a b c : Noun) (hab : tipOrder f a b) (hbc : tipOrder f b c) :
    tipOrder f a c := by
  by_cases h1 : f a = f b <;> by_cases h2 : f b = f c
  · simp only [tipOrder, h1, h2, if_true] at *
    exact dorTip_trans a b c hab hbc
  · simp only [tipOrder, h1, h2, if_false] at *
    exact hbc
  · simp only [tipOrder, ← h2, h1, if_false] at *
    exact hab
  simp only [tipOrder, lthTip, h1, h2, if_false, decide_eq_true_eq] at hab hbc
  have h3 : f a ≠ f c := by
    intro h
    rw [h] at hab
    omega
  simp only [tipOrder, lthTip, h3, if_false, decide_eq_true_eq]
  omega

end TipOrder

section Orders

variable [Tip5]

/-- `tip`. -/
def tip (a : Noun) : Digest := Tip5.sponge a

/-- `double-tip`. -/
def doubleTip (a : Noun) : Digest := hashTenCell (tip a) (tip a)

/-- `gor-tip`. -/
def gorTip (a b : Noun) : Bool := tipOrder tip a b

/-- `gor-tip` with its crash: both keys are hashed. -/
def gorTipM (a b : Noun) : Option Bool := do
  let _ ← hashNounVarlen a
  let _ ← hashNounVarlen b
  return gorTip a b

/-- `mor-tip`. -/
def morTip (a b : Noun) : Bool := tipOrder doubleTip a b

/-- Every type of nouns has the two orders of its nouns. -/
instance {κ : Type} [ToNoun κ] : TreapOrder κ where
  gor a b := gorTip (toNoun a) (toNoun b)
  mor a b := morTip (toNoun a) (toNoun b)
  gor_total _ _ := tipOrder_total Tip5.sponge_toAtom _ _
  gor_antisymm _ _ hab hba := toNoun_inj.1 (tipOrder_antisymm _ _ hab hba)
  gor_trans _ _ _ := tipOrder_trans _ _ _
  mor_total _ _ := tipOrder_total (fun _ _ => Tip5.sponge10_toAtom _ _ _ _) _ _
  mor_antisymm _ _ hab hba := toNoun_inj.1 (tipOrder_antisymm _ _ hab hba)
  mor_trans _ _ _ := tipOrder_trans _ _ _

end Orders

end Nockchain
