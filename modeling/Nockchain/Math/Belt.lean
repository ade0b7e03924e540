import Nockchain.Lib.Radix
import Nockchain.Tip5

/-!
# `Nockchain.Math.Belt`: words as base field elements

A `Belt` is a 64-bit word that should be below the prime; nothing in the type says so,
and `based_check` is the test for it. Five of them are the digits of a hash in base
`p`, lowest first: `basePToDecimal` and `decimalToBaseP` are the loops every crate has
its own copy of. A noun is hashed as a list of belts (`shape.rs`, `tip5/hash.rs`): the
number of its leaves, the leaves and the Dyck word of its shape.
-/

set_option autoImplicit false

namespace Nockchain.Math

open Nockchain.Lib

/-- `Belt`. -/
structure Belt where
  val : UInt64
deriving DecidableEq, Repr

/-- `based_check`. -/
def basedCheck (a : UInt64) : Bool := a.toNat < basePrime

/-- `base_p_to_decimal`: the sum of `value * p^i`. -/
def basePToDecimal (words : List UInt64) : Nat :=
  words.zipIdx.foldl (fun result (value, i) => result + value.toNat * basePrime ^ i) 0

/-- `decimal_to_base_p`: `n` times `% p` and `/= p`; the quotient left over comes with
the words. -/
def decimalToBaseP (n : Nat) (value : Nat) : List.Vector UInt64 n × Nat :=
  (⟨(peel basePrime n value).1.map UInt64.ofNat, by simp⟩, (peel basePrime n value).2)

/-! ### What a hash absorbs -/

/-- `dyck_recursive`: the word of `t` in front of `vec`, last letter first. -/
def dyckRecursive : Noun → List Nat → List Nat
  | .atom _, vec => vec
  | .cell head tail, vec => dyckRecursive tail (1 :: dyckRecursive head (0 :: vec))

/-- `dyck`. -/
def dyck (t : Noun) : List Nat := (dyckRecursive t []).reverse

/-- `do_leaf_sequence`: fails on an atom that is not a word. -/
def doLeafSequence : Noun → List Nat → Option (List Nat)
  | .atom a, vec => if a < 2 ^ 64 then some (vec ++ [a]) else none
  | .cell head tail, vec => do doLeafSequence tail (← doLeafSequence head vec)

/-- `leaf_sequence`. -/
def leafSequence (t : Noun) : Option (List Nat) := doLeafSequence t []

/-- `arg` of `hash_noun_varlen`. -/
def hashNounVarlenArg (n : Noun) : Option (List Nat) := do
  let leaf ← leafSequence n
  let size := leaf.length
  return size :: (leaf ++ dyck n)

/-- `from_noun` of a `Belt`. -/
def Belt.fromAtom (a : Nat) : Option Belt := if a < basePrime then some ⟨.ofNat a⟩ else none

/-- The belts that `hash_belts_list` hands to `hash_varlen`. -/
def hashNounVarlenInput (n : Noun) : Option (List Belt) := do
  (← hashNounVarlenArg n).mapM Belt.fromAtom

/-- `RATE`. -/
def rate : Nat := 10

/-- `tip5_calc_q_r`. -/
def tip5CalcQR (input : List Belt) : Nat × Nat := (input.length / rate, input.length % rate)

/-- `tip5_pad_vecbelt`. -/
def tip5PadVecbelt (input : List Belt) (r : Nat) : List Belt :=
  input ++ [⟨1⟩] ++ .replicate (rate - r - 1) ⟨0⟩

/-- The input of `hash_varlen` after its padding. -/
def padded (input : List Belt) : List Belt := tip5PadVecbelt input (tip5CalcQR input).2

end Nockchain.Math

/-!
## Hashes as base 58 text

`Hash::to_base58` and `Hash::from_base58` of `nockchain-types`. The hash is read as a
number in base `p`, and the bytes of that number, highest first and without leading
zeros, are written in base 58. Base 58 itself is `Lib.Base58`.
-/

namespace Nockchain.Types

open Nockchain.Lib Nockchain.Math

/-- `Hash`. -/
structure Hash where
  belts : List.Vector Belt 5
deriving DecidableEq

/-- `HashDecodeError`; what base 58 complains about is left out. -/
inductive HashDecodeError where
  | providedValueTooLarge
  | base58
deriving DecidableEq, Repr

namespace Hash

/-- `Hash::to_base58`. -/
def toBase58 (h : Hash) : String :=
  Base58.numeral (basePToDecimal (h.belts.toList.map Belt.val))

/-- `Hash::from_base58`. The quotient after five digits is compared with `P_BIG`, the
prime itself. -/
def fromBase58 (s : String) : Except HashDecodeError Hash :=
  match Base58.decode s with
  | none => .error .base58
  | some bytes =>
    let (belts, value) := decimalToBaseP 5 (ofBigEndian bytes)
    if value > basePrime then .error .providedValueTooLarge else .ok ⟨belts.map Belt.mk⟩

end Hash

end Nockchain.Types
