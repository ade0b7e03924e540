import Nockchain.Lib.Bits
import Nockchain.Zoon.Order

/-!
# `Nockchain.Math.Zoon`: the treap orders in Rust

`zoon/common.rs` of the crate `nockchain-math` compares nouns as `zoon.hoon`
does, for the sets and maps that are built outside of the VM. Its hash is a
parameter, `TipHasher`; a hash that fails makes the comparison fail. Booleans
come back from the jets of `nockvm` as loobeans, `0` for yes.
-/

set_option autoImplicit false

namespace Nockchain.Math

open Lib

/-! ### Loobeans -/

/-- `YES`. -/
def yes : Noun := .atom 0

/-- `NO`. -/
def no : Noun := .atom 1

/-- `lth_b`: direct atoms by value, others by their size first. -/
def lthB (a b : Nat) : Bool :=
  if a < 2 ^ 63 ∧ b < 2 ^ 63 then a < b
  else if width b < width a then false
  else if width a < width b then true
  else a < b

/-- `lth`, of the jets. -/
def lth (a b : Nat) : Noun := if lthB a b then yes else no

/-! ### The orders -/

/-- `TipHasher`: its digests are made of field elements. -/
structure TipHasher where
  hashNounVarlen : Noun → Option Digest
  hashTenCell : Digest → Digest → Option Digest
  isBased_hashNounVarlen : ∀ n d, hashNounVarlen n = some d → d.isBased = true
  isBased_hashTenCell : ∀ c c' d, hashTenCell c c' = some d → d.isBased = true

/-- `tip`. -/
def tip (hasher : TipHasher) (a : Noun) : Option Digest := hasher.hashNounVarlen a

/-- `double_tip`. -/
def doubleTip (hasher : TipHasher) (a : Noun) : Option Digest := do
  let hash ← hasher.hashNounVarlen a
  hasher.hashTenCell hash hash

/-- The loop of `lth_tip`, over the words from the last to the first. -/
def lthWords : List Nat → List Nat → Bool
  | a :: as, b :: bs => if a < b then true else if b < a then false else lthWords as bs
  | _, _ => false

/-- `lth_tip`. -/
def lthTip (a b : Digest) : Bool := lthWords [a.e, a.d, a.c, a.b, a.a] [b.e, b.d, b.c, b.b, b.a]

/-- `dor_tip`. -/
def dorTip : Noun → Noun → Bool
  | .cell _ _, .atom _ => false
  | .cell h t, .cell h' t' =>
    if h = h' ∧ t = t' then true
    else if h = h' then dorTip t t'
    else dorTip h h'
  | .atom _, .cell _ _ => false
  | .atom a, .atom b => if a = b then true else lth a b = .atom 1

/-- Nouns by a hash, and by `dor_tip` where the hashes are equal. -/
def tipOrder (hash : Noun → Option Digest) (a b : Noun) : Option Bool := do
  let aTip ← hash a
  let bTip ← hash b
  return if aTip = bTip then dorTip a b else lthTip aTip bTip

/-- `gor_tip`. -/
def gorTip (hasher : TipHasher) (a b : Noun) : Option Bool := tipOrder (tip hasher) a b

/-- `mor_tip`. -/
def morTip (hasher : TipHasher) (a b : Noun) : Option Bool := tipOrder (doubleTip hasher) a b

end Nockchain.Math
