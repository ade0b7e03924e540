import Nockchain.Mem.Mug
import Nockchain.TxEngine.Basic
import Nockchain.NounSerde.Codec

/-!
# `Nockchain.Math.Schnorr`: signatures over the cheetah curve

`schnorr` of `ztd/three.hoon` signs and verifies with numbers, and `belt-schnorr` wraps it for
signatures that are made of field elements: a number is eight 32-bit limbs, the lowest first.
The limbs are made with `rip` and put together again with `rap`, which gives each limb the blocks
that it fills, and with `rep`, which gives each limb one block.

The arithmetic of affine points (`Affine`) and the hash of a list of field elements (`Varlen`) are
parameters. A gate that crashes is `none`.
-/

set_option autoImplicit false

namespace Nockchain.Schnorr

open Lib TxEngine NounSerde

section

/-! ### The curve -/

/-- `f6-zero`. -/
def f6Zero : F6lt := ⟨0, 0, 0, 0, 0, 0⟩

/-- `f6-one`. -/
def f6One : F6lt := ⟨1, 0, 0, 0, 0, 0⟩

/-- `gx`. -/
def gx : F6lt :=
  ⟨2754611494552410273, 8599518745794843693, 10526511002404673680, 4830863958577994148,
    375185138577093320, 12938930721685970739⟩

/-- `gy`. -/
def gy : F6lt :=
  ⟨15384029202802550068, 2774812795997841935, 14375303400746062753, 10708493419890101954,
    13187678623570541764, 9990732138772505951⟩

/-- `g-order`. -/
def gOrder : Nat := 0x7af2599b3b3f22d0563fbf0f990a37b5327aa72330157722d443623eaed4accf

/-- `a-pt`: an affine point. -/
abbrev APt := SchnorrPubkey

/-- `a-id`. -/
def aId : APt := ⟨f6Zero, f6One, true⟩

/-- `a-gen`. -/
def aGen : APt := ⟨gx, gy, false⟩

/-- The operations of `affine:curve`. -/
class Affine where
  chAdd : APt → APt → Option APt
  chDouble : APt → Option APt
  chNeg : APt → Option APt

export Affine (chAdd chDouble chNeg)

/-- One turn of the loop of `ch-scal`, for bit `i` of the scalar. -/
def chScalStep [Affine] (n : Nat) (s : APt × APt) (i : Nat) : Option (APt × APt) := do
  let acc ← (if n.testBit i then chAdd s.1 s.2 else some s.1)
  let p ← chDouble s.2
  return (acc, p)

/-- `ch-scal`: the loop takes the bits of the scalar from the lowest one up. -/
def chScal [Affine] (n : Nat) (p : APt) : Option APt := do
  let s ← (List.range (width n)).foldlM (chScalStep n) (aId, p)
  return s.1

/-! ### Hashing -/

/-- The sponge over a list of field elements. -/
class Varlen where
  sponge : List Nat → Digest

/-- `hash-varlen`: asserts that the input is made of field elements. -/
def hashVarlen [Varlen] (l : List Nat) : Option Digest := do
  guard (l.all based)
  return Varlen.sponge l

/-- `trunc-g-order`. -/
def truncGOrder (a : Digest) : Nat :=
  (a.a + basePrime * a.b + basePrime * basePrime * a.c +
    basePrime * basePrime * basePrime * a.d) % gOrder

/-- `f6lt-to-list`. -/
def f6ltToList (f : F6lt) : List Nat := [f.a0, f.a1, f.a2, f.a3, f.a4, f.a5]

/-- `leaf-sequence` of a digest. -/
def digestToList (d : Digest) : List Nat := [d.a, d.b, d.c, d.d, d.e]

/-- What the challenge is the hash of. -/
def preImage (scalar pubkey : APt) (m : Digest) : List Nat :=
  f6ltToList scalar.x ++ f6ltToList scalar.y ++ f6ltToList pubkey.x ++ f6ltToList pubkey.y ++
    digestToList m

/-! ### Signatures as numbers -/

/-- `++rep`: one block for each number. -/
def rep (bloq : Nat) (l : List Nat) : Nat :=
  l.foldr (fun w n => n * 2 ^ 2 ^ bloq + w % 2 ^ 2 ^ bloq) 0

/-- `++rap`: as many blocks for a number as it fills. -/
def rap (bloq : Nat) (l : List Nat) : Nat := l.foldr (Mem.Hoon.cat bloq) 0

variable [Affine] [Varlen]

/-- `sign:affine:schnorr`. -/
def sign (skBelts : List Nat) (m : Digest) : Option (Nat × Nat) := do
  guard (skBelts.all (· < 2 ^ 32))
  let sk := rep 5 skBelts
  guard (sk ≠ 0)
  guard (sk < gOrder)
  let pubkey ← chScal sk aGen
  let nonce := truncGOrder
    (← hashVarlen (f6ltToList pubkey.x ++ f6ltToList pubkey.y ++ digestToList m ++ skBelts))
  guard (nonce ≠ 0)
  let scalar ← chScal nonce aGen
  let chal := truncGOrder (← hashVarlen (preImage scalar pubkey m))
  guard (chal ≠ 0)
  let sig := (nonce + chal * sk) % gOrder
  guard (sig ≠ 0)
  return (chal, sig)

/-- The nonce point that `verify` computes. -/
def noncePoint (pubkey : APt) (chal sig : Nat) : Option APt := do
  let left ← chScal sig aGen
  let right ← chNeg (← chScal chal pubkey)
  chAdd left right

/-- `verify:affine:schnorr`. Its assertion compares a point with a field element, as nouns. -/
def verify (pubkey : APt) (m : Digest) (chal sig : Nat) : Option Bool :=
  if 0 < chal ∧ chal < gOrder ∧ 0 < sig ∧ sig < gOrder then do
    let scalar ← noncePoint pubkey chal sig
    guard (toNoun scalar ≠ toNoun f6Zero)
    let hash ← hashVarlen (preImage scalar pubkey m)
    return chal == truncGOrder hash
  else some false

/-! ### Signatures as limbs -/

/-- `t8-to-list`. -/
def t8ToList (t : T8) : List Nat := [t.a, t.b, t.c, t.d, t.e, t.f, t.g, t.h]

/-- `rip-correct`. -/
def ripCorrect (bloq a : Nat) : List Nat := if a = 0 then [0] else Mem.Hoon.rip bloq a

/-- `atom-to-t8`: crashes on a number of more than eight limbs. -/
def atomToT8 (a : Nat) : Option T8 := do
  let ripped := ripCorrect 5 a
  guard (ripped.length ≤ 8)
  match ripped ++ List.replicate (8 - ripped.length) 0 with
  | [a, b, c, d, e, f, g, h] => some ⟨a, b, c, d, e, f, g, h⟩
  | _ => none

/-- `t8-to-atom`. -/
def t8ToAtom (t : T8) : Nat := rap 5 (t8ToList t)

/-- `sign:affine:belt-schnorr`. -/
def beltSign (sk : T8) (m : Digest) : Option SchnorrSignature := do
  let (c, s) ← sign (t8ToList sk) m
  return ⟨← atomToT8 c, ← atomToT8 s⟩

/-- `verify:affine:belt-schnorr`. -/
def beltVerify (pk : APt) (m : Digest) (s : SchnorrSignature) : Option Bool :=
  verify pk m (t8ToAtom s.chal) (t8ToAtom s.sig)

end

/-!
## The jets of signature verification

`cheetah_jets.rs` replaces `verify` and `batch-verify` of `schnorr`. The formulas for affine points
are the same in `ztd/three.hoon` and in `crypto/cheetah.rs`. They differ in where they fail: every
operation of the base field in Hoon asserts that its arguments are field elements, in Rust the
arguments are checked once, when they are read from the noun.

The arithmetic of the field of the curve is a parameter (`F6`), the same for both.
-/

/-- The field of the curve. `inv` is asked only for nonzero elements. -/
class F6 where
  add : F6lt → F6lt → F6lt
  neg : F6lt → F6lt
  scal : Nat → F6lt → F6lt
  mul : F6lt → F6lt → F6lt
  square : F6lt → F6lt
  inv : F6lt → F6lt
  square_eq : ∀ f : F6lt, f.isBased → square f = mul f f
  add_based : ∀ f g : F6lt, f.isBased → g.isBased → (add f g).isBased
  neg_based : ∀ f : F6lt, f.isBased → (neg f).isBased
  scal_based : ∀ (c : Nat) (f : F6lt), based c → f.isBased → (scal c f).isBased
  mul_based : ∀ f g : F6lt, f.isBased → g.isBased → (mul f g).isBased
  inv_based : ∀ f : F6lt, f.isBased → (inv f).isBased

/-! ### Hoon -/

namespace Hoon

variable [F6]

/-- `f6-add`. -/
def f6Add (f g : F6lt) : Option F6lt := do
  guard (f.isBased && g.isBased)
  return F6.add f g

/-- `f6-neg`. -/
def f6Neg (f : F6lt) : Option F6lt := do
  guard f.isBased
  return F6.neg f

/-- `f6-sub`. -/
def f6Sub (f g : F6lt) : Option F6lt := do f6Add f (← f6Neg g)

/-- `f6-scal`. -/
def f6Scal (c : Nat) (f : F6lt) : Option F6lt := do
  guard (based c && f.isBased)
  return F6.scal c f

/-- `f6-mul`. -/
def f6Mul (f g : F6lt) : Option F6lt := do
  guard (f.isBased && g.isBased)
  return F6.mul f g

/-- `f6-square`. -/
def f6Square (f : F6lt) : Option F6lt := do
  guard f.isBased
  return F6.square f

/-- `f6-div`, with `f6-inv` in it. -/
def f6Div (f g : F6lt) : Option F6lt := do
  guard (g ≠ f6Zero)
  guard g.isBased
  f6Mul f (F6.inv g)

/-- `ch-neg`. -/
def chNeg (p : APt) : Option APt := do return ⟨p.x, ← f6Neg p.y, p.inf⟩

/-- The end of `ch-add-unsafe` and of `ch-double-unsafe`: the third point on a line. -/
def chord (slope xSum x y : F6lt) : Option APt := do
  let xOut ← f6Sub (← f6Square slope) xSum
  let yOut ← f6Sub (← f6Mul slope (← f6Sub x xOut)) y
  return ⟨xOut, yOut, false⟩

/-- `ch-double`. -/
def chDouble (p : APt) : Option APt :=
  if p.inf then some aId
  else if p.y = f6Zero then some aId
  else do
    let slope ← f6Div (← f6Add (← f6Scal 3 (← f6Square p.x)) f6One) (← f6Scal 2 p.y)
    chord slope (← f6Scal 2 p.x) p.x p.y

/-- `ch-add`. -/
def chAdd (p q : APt) : Option APt :=
  if p.inf then some q
  else if q.inf then some p
  else do
    let negQ ← chNeg q
    if p = negQ then return aId
    else if p = q then chDouble p
    else
      let slope ← f6Div (← f6Sub p.y q.y) (← f6Sub p.x q.x)
      chord slope (← f6Add p.x q.x) p.x p.y

/-- The points of the gates. -/
@[reducible] def affine : Affine := ⟨chAdd, chDouble, chNeg⟩

end Hoon

/-! ### Rust -/

namespace Jets

section Points

variable [F6]

/-- `f6_sub`. -/
def f6Sub (f g : F6lt) : F6lt := F6.add f (F6.neg g)

/-- `f6_square`. -/
def f6Square (f : F6lt) : F6lt := F6.mul f f

/-- `f6_div`, with `f6_inv` in it. -/
def f6Div (f g : F6lt) : Option F6lt := do
  guard (g ≠ f6Zero)
  return F6.mul f (F6.inv g)

/-- `ch_neg`. -/
def chNeg (p : APt) : APt := ⟨p.x, F6.neg p.y, p.inf⟩

/-- The end of `ch_add_unsafe` and of `ch_double_unsafe`. -/
def chord (slope xSum x y : F6lt) : APt :=
  let xOut := f6Sub (f6Square slope) xSum
  ⟨xOut, f6Sub (F6.mul slope (f6Sub x xOut)) y, false⟩

/-- `ch_double`. -/
def chDouble (p : APt) : Option APt :=
  if p.inf then some aId
  else if p.y = f6Zero then some aId
  else do
    let slope ← f6Div (F6.add (F6.scal 3 (f6Square p.x)) f6One) (F6.scal 2 p.y)
    return chord slope (F6.scal 2 p.x) p.x p.y

/-- `ch_add`. -/
def chAdd (p q : APt) : Option APt :=
  if p.inf then some q
  else if q.inf then some p
  else if p = chNeg q then some aId
  else if p = q then chDouble p
  else do
    let slope ← f6Div (f6Sub p.y q.y) (f6Sub p.x q.x)
    return chord slope (F6.add p.x q.x) p.x p.y

/-- The points of the jets. An error is `none`. -/
@[reducible] def affine : Affine := ⟨chAdd, chDouble, fun p => some (chNeg p)⟩

end Points

/-- `ValidateArgs`: a tuple of a batch. -/
structure Args where
  pubkey : APt
  m : Digest
  chal : Nat
  sig : Nat
deriving DecidableEq, Repr

/-- The key and the digest can be read from the noun. -/
def Args.isBased (t : Args) : Bool := t.pubkey.isBased && t.m.isBased

variable [Affine] [Varlen]

/-- `verify_affine`. `hash_varlen` panics on an input that is not made of field elements. -/
def verifyAffine (t : Args) : Outcome Unit Bool :=
  match noncePoint t.pubkey t.chal t.sig with
  | none => .err ()
  | some sum =>
    if sum.x = f6Zero then .err ()
    else match hashVarlen (preImage sum t.pubkey t.m) with
      | none => .panic
      | some hash => .ok (truncGOrder hash == t.chal)

/-- `verify_affine_jet`. -/
def verifyAffineJet (t : Args) : Outcome Unit Bool :=
  if t.isBased then verifyAffine t else .err ()

/-- `batch_verify_affine_jet`. The tuples are verified in parallel, in any order, and the search
for an invalid one may end before all of them have been. A tuple with an error is unwrapped. -/
inductive BatchVerifyAffineJet (batch : List Args) : Outcome Unit Bool → Prop where
  | unread {t : Args} : t ∈ batch → t.isBased = false → BatchVerifyAffineJet batch (.err ())
  | valid : (∀ t ∈ batch, t.isBased) → (∀ t ∈ batch, verifyAffine t = .ok true) →
      BatchVerifyAffineJet batch (.ok true)
  | invalid {t : Args} : (∀ t ∈ batch, t.isBased) → t ∈ batch → verifyAffine t = .ok false →
      BatchVerifyAffineJet batch (.ok false)
  | unwrap {t : Args} : (∀ t ∈ batch, t.isBased) → t ∈ batch → (∀ b, verifyAffine t ≠ .ok b) →
      BatchVerifyAffineJet batch .panic

end Jets

/-! ### The gates on tuples -/

variable [Affine] [Varlen]

/-- `verify` on a tuple. -/
def verifyArgs (t : Jets.Args) : Option Bool := verify t.pubkey t.m t.chal t.sig

/-- `batch-verify:affine:schnorr`. -/
def batchVerify (batch : List Jets.Args) : Option Bool := batch.allM verifyArgs

/-! ### The parameter of the engine -/

/-- Verification as the gates have it. -/
@[reducible] def gateCheetah : Cheetah :=
  ⟨fun pk m chal sig => verify pk m chal sig = some true⟩

/-- Verification as the jets have it. -/
@[reducible] def jetCheetah : Cheetah :=
  ⟨fun pk m chal sig => Jets.verifyAffineJet ⟨pk, m, chal, sig⟩ = .ok true⟩

end Nockchain.Schnorr
