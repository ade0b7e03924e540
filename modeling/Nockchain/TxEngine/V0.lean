import Nockchain.Serialization.Jam
import Nockchain.TxEngine.Basic

/-!
# `Nockchain.TxEngine.V0`: version 0 notes and transactions

The types of `tx-engine-0.hoon` that a version 0 transaction is made of, with
the functions that build and validate one. An input names the note it spends
and carries a signed `spend`, whose seeds give the note's assets away; the
outputs of a transaction are the seeds grouped by recipient.

`validate` functions return a loobean and can crash. A crash is `none`; the
callers in `tx-engine.hoon` turn it into a rejection.
-/

set_option autoImplicit false

namespace Nockchain.TxEngine

open Lib

/-- `compute-size-jam`: the length of the jammed noun, in bits. -/
def computeSizeJam (n : Noun) : Option Nat := (Serialization.jam n).map width

namespace V0

variable [Tip5]

/-! ### Names -/

/-- `first:new:nname`. -/
def nnameFirst (owners : Sig) (hasTimelock : Bool) : Option Digest :=
  hashHashable
    (.pair (leafOf true) (.pair (leafOf hasTimelock) (.pair (hashOf owners.hashable) leafNull)))

/-- `last:new:nname`. -/
def nnameLast (source : Source) (timelock : Option TimelockIntent) : Option Digest :=
  hashHashable (.pair (leafOf true)
      (.pair source.hashable (.pair (hashOf (Timelock.hashable timelock)) leafNull)))

/-- `new:nname`. -/
def newNname (owners : Sig) (source : Source) (timelock : Option TimelockIntent) :
    Option Nname := do
  let first ← nnameFirst owners timelock.isSome
  let last ← nnameLast source timelock
  return ⟨first, last⟩

/-! ### Notes -/

/-- `$nnote`, version 0. -/
structure Nnote where
  originPage : Nat
  timelock : Option TimelockIntent
  name : Nname
  sig : Sig
  source : Source
  assets : Nat
deriving DecidableEq

instance : ToNoun Nnote where
  toNoun n := toNoun ((0, n.originPage, n.timelock), n.name, n.sig, n.source, n.assets)
  toNoun_injective := by
    rintro ⟨⟩ ⟨⟩ h
    simpa [toNoun_inj, and_assoc] using h

namespace Nnote

/-- `*nnote`. -/
instance : Inhabited Nnote := ⟨0, none, default, default, ⟨default, true⟩, 0⟩

/-- `based:nnote`. -/
def isBased (n : Nnote) : Bool :=
  n.name.isBased && n.sig.isBased && n.source.p.isBased && based n.assets

/-- `hashable:nnote`. -/
def hashable (n : Nnote) : Hashable :=
  .pair (.pair (leafOf 0) (.pair (leafOf n.originPage) (hashOf (Timelock.hashable n.timelock))))
    (.pair (hashOf n.name.hashable) (.pair (hashOf n.sig.hashable)
      (.pair (hashOf n.source.hashable) (leafOf n.assets))))

/-- `hash:nnote`. -/
def hash (n : Nnote) : Option Digest := hashHashable n.hashable

end Nnote

/-! ### Seeds -/

/-- `$seed`, version 0: what a note gives to a recipient. -/
structure Seed where
  outputSource : Option Source
  recipient : Sig
  timelockIntent : Option TimelockIntent
  gift : Nat
  parentHash : Digest
deriving DecidableEq

instance : ToNoun Seed where
  toNoun s := toNoun (s.outputSource, s.recipient, s.timelockIntent, s.gift, s.parentHash)

namespace Seed

/-- `based:seed`. -/
def isBased (s : Seed) : Bool :=
  s.outputSource.all (·.p.isBased) && s.recipient.isBased && Timelock.isBased s.timelockIntent &&
    based s.gift && s.parentHash.isBased

/-- `hashable:seed`: all but the output source, which could create a hash loop. -/
def hashable (s : Seed) : Hashable :=
  .pair s.recipient.hashable
    (.pair (Timelock.hashable s.timelockIntent) (.pair (leafOf s.gift) (.hash s.parentHash)))

/-- `sig-hashable:seed`. -/
def sigHashable (s : Seed) : Hashable :=
  .pair (Source.hashableUnit s.outputSource) s.hashable

end Seed

/-- `$seeds`. -/
abbrev Seeds := ZSet Seed

namespace Seeds

/-- `based:seeds`. -/
def isBased (s : Seeds) : Bool := s.tap.all Seed.isBased

/-- `hashable:seeds`. -/
def hashable (s : Seeds) : Hashable := treeHashable Seed.hashable s.tree

/-- `sig-hashable:seeds`. -/
def sigHashable (s : Seeds) : Hashable := treeHashable Seed.sigHashable s.tree

end Seeds

/-! ### Spends and inputs -/

/-- `$spend`, version 0. -/
structure Spend where
  signature : Option Signature
  seeds : Seeds
  fee : Nat
deriving DecidableEq

instance : ToNoun Spend where
  toNoun s := toNoun (s.signature, s.seeds, s.fee)

namespace Spend

/-- `sig-hash:spend`. -/
def sigHash (sen : Spend) : Option Digest :=
  hashHashable (.pair sen.seeds.sigHashable (leafOf sen.fee))

/-- `signatures:spend`: crashes where there is none. -/
def signatures (sen : Spend) : Option (List (SchnorrPubkey × Digest × Nat × Nat)) := do
  let signature ← sen.signature
  signature.tap.mapM fun (pk, sig) => do
    let m ← sen.sigHash
    return (pk, m, sig.chal.toAtom, sig.sig.toAtom)

/-- `verify-without-signatures:spend`. -/
def verifyWithoutSignatures (sen : Spend) (parentNote : Nnote) : Option Bool :=
  match sen.signature with
  | none => some false
  | some signature => do
    let parentHash ← parentNote.hash
    let havePks := signature.key
    return sen.seeds.all (fun sed => sed.parentHash = parentHash) &&
      !(havePks.wyt < parentNote.sig.m) &&
      parentNote.sig.pubkeys.int havePks = havePks

/-- `based:spend`. -/
def isBased (sen : Spend) : Bool :=
  sen.signature.all Signature.isBased && based sen.fee && sen.seeds.isBased

/-- `hashable:spend`. -/
def hashable (sen : Spend) : Hashable :=
  .pair (unitHashable Signature.hashable sen.signature) (.pair sen.seeds.hashable (leafOf sen.fee))

end Spend

/-- `$input`, version 0. -/
structure Input where
  note : Nnote
  spend : Spend
deriving DecidableEq

instance : ToNoun Input where
  toNoun i := toNoun (i.note, i.spend)

namespace Input

/-- The fee and the gifts of a spend, as `validate-without-signatures:input` adds them. -/
def giftsAndFee (inp : Input) : Nat :=
  inp.spend.fee + inp.spend.seeds.tap.foldl (fun acc seed => acc + seed.gift) 0

/-- `validate-without-signatures:input`. -/
def validateWithoutSignatures (inp : Input) : Option Bool := do
  let checkSpend ← inp.spend.verifyWithoutSignatures inp.note
  let checkGiftsAndFee := inp.giftsAndFee = inp.note.assets
  return checkSpend && checkGiftsAndFee

/-- `based:input`. -/
def isBased (inp : Input) : Bool := inp.note.isBased && inp.spend.isBased

/-- `hashable:input`. -/
def hashable (inp : Input) : Hashable := .pair inp.note.hashable inp.spend.hashable

end Input

/-- `$inputs`. -/
abbrev Inputs := ZMap Nname Input

/-- `batch-verify:affine:schnorr`. -/
def batchVerifyAtoms [Cheetah] (batch : List (SchnorrPubkey × Digest × Nat × Nat)) : Bool :=
  batch.all fun (pk, m, chal, sig) => Cheetah.verify pk m chal sig

namespace Inputs

/-- `roll-fees:inputs`. -/
def rollFees (ips : Inputs) : Nat := ips.val.foldl (fun fees inp => inp.spend.fee + fees) 0

/-- `roll-timelocks:inputs`. -/
def rollTimelocks (ips : Inputs) : TimelockRange :=
  ips.val.foldl
    (fun range ip => range.merge (Timelock.fixAbsolute ip.note.timelock ip.note.originPage))
    .unbounded

/-- `signatures:inputs`. -/
def signatures (ips : Inputs) : Option (List (SchnorrPubkey × Digest × Nat × Nat)) :=
  ips.val.foldlM (fun sigs inp => do return sigs ++ (← inp.spend.signatures)) []

/-- `validate:inputs`: an input with a wrong signature crashes. -/
def validate [Cheetah] (ips : Inputs) : Option Bool :=
  if ips = ∅ then some false
  else do
    let sigs ← ips.signatures
    guard (batchVerifyAtoms sigs)
    ips.tap.allM fun (name, inp) => do
      return (← inp.validateWithoutSignatures) && name = inp.note.name

/-- `based:inputs`. -/
def isBased (ips : Inputs) : Bool := ips.tap.all fun (name, inp) => inp.isBased && name.isBased

/-- `hashable:inputs`. -/
def hashable (ips : Inputs) : Hashable :=
  treeHashable (fun (name, inp) => .pair name.hashable inp.hashable) ips.tree

end Inputs

/-! ### Outputs -/

/-- `$output`, version 0. -/
structure Output where
  note : Nnote
  seeds : Seeds
deriving DecidableEq

instance : ToNoun Output where
  toNoun o := toNoun (o.note, o.seeds)

namespace Output

/-- `*output`. -/
instance : Inhabited Output := ⟨default, ∅⟩

/-- `compute-source:output`. -/
def computeSource (out : Output) : Option Source := do
  let p ← hashHashable out.seeds.hashable
  return ⟨p, false⟩

/-- `validate:output`. -/
def validate (out : Output) : Bool :=
  (out.seeds.tap.all fun seed => seed.outputSource.all (· = out.note.source)) &&
    out.seeds.tap.foldl (fun acc seed => seed.gift + acc) 0 = out.note.assets

/-- `reconcile`, in `birth-children:outputs`. -/
def reconcile (a b : Option TimelockIntent) : Option (Option TimelockIntent) :=
  match b with
  | none => some a
  | some _ =>
    let bTimelock := Timelock.convertFromIntent b
    match a with
    | none => some bTimelock
    | some _ => if a = bTimelock then some a else none

/-- What one seed adds to the note that is born: `child` is the output before any seed. -/
def birthSeed (child : Output) (chi : Output) (seed : Seed) : Option Output := do
  let timelock ←
    if seed.timelockIntent ≠ none then reconcile child.note.timelock seed.timelockIntent
    else some chi.note.timelock
  return { chi with
    note := { chi.note with
      timelock
      assets := seed.gift + chi.note.assets
      sig := seed.recipient } }

/-- The gate of `birth-children:outputs`. -/
def birth (newPageNumber : Nat) (child : Output) : Option Output := do
  let child := { child with note := { child.note with originPage := newPageNumber } }
  let source ← child.computeSource
  let child := { child with note := { child.note with source } }
  let child ← child.seeds.tap.foldlM (birthSeed child) child
  let name ← newNname child.note.sig child.note.source child.note.timelock
  return { child with note := { child.note with name } }

end Output

/-- `$outputs`, by recipient. -/
abbrev Outputs := ZMap Sig Output

namespace Outputs

/-- `add-seed:outputs`: crashes on a seed that the recipient has already. -/
def addSeed (children : Outputs) (sed : Seed) : Option Outputs :=
  match children.get sed.recipient with
  | some child => do
    guard (!child.seeds.has sed)
    return children.put sed.recipient { child with seeds := child.seeds.put sed }
  | none =>
    some (children.put sed.recipient { (default : Output) with seeds := ZSet.put ∅ sed })

/-- `birth-children:outputs`. -/
def birthChildren (children : Outputs) (newPageNumber : Nat) : Option Outputs :=
  children.runM (Output.birth newPageNumber)

/-- `new:outputs`. -/
def new (ips : Inputs) (newPageNumber : Nat) : Option Outputs := do
  guard (ips ≠ ∅)
  let children ← ips.val.foldlM (fun children inp => inp.spend.seeds.tap.foldlM addSeed children) ∅
  children.birthChildren newPageNumber

/-- `validate:outputs`. -/
def validate (ops : Outputs) : Bool :=
  ops.tap.all fun (loc, out) => out.validate && loc = out.note.sig

end Outputs

/-! ### Transactions -/

/-- `$raw-tx`, version 0. -/
structure RawTx where
  id : Digest
  inputs : Inputs
  timelockRange : TimelockRange
  totalFees : Nat
deriving DecidableEq

instance : ToNoun RawTx where
  toNoun r := toNoun (r.id, r.inputs, r.timelockRange, r.totalFees)

namespace RawTx

/-- `compute-id:raw-tx`. -/
def computeId (raw : RawTx) : Option Digest :=
  hashHashable (.pair raw.inputs.hashable (.pair raw.timelockRange.hashable (leafOf raw.totalFees)))

/-- `based:raw-tx`. -/
def isBased (raw : RawTx) : Bool :=
  raw.id.isBased && raw.inputs.isBased && raw.timelockRange.isBased && based raw.totalFees

/-- `validate:raw-tx`: all five checks are made before any is looked at. -/
def validate [Cheetah] (raw : RawTx) : Option Bool := do
  let checkInputs ← raw.inputs.validate
  let checkFees := raw.totalFees = raw.inputs.rollFees
  let checkTimelock := raw.timelockRange = raw.inputs.rollTimelocks
  let checkField := raw.id.isBased
  let checkId := raw.id = (← raw.computeId)
  return checkInputs && checkFees && checkTimelock && checkField && checkId

/-- `compute-size:raw-tx`. -/
def computeSize (raw : RawTx) : Option Nat := computeSizeJam (toNoun raw)

/-- `inputs-names:raw-tx`. -/
def inputsNames (raw : RawTx) : ZSet Nname := raw.inputs.key

end RawTx

/-- `$tx`, version 0. -/
structure Tx where
  rawTx : RawTx
  totalSize : Nat
  outputs : Outputs
deriving DecidableEq

namespace Tx

/-- `new:tx`. -/
def new (raw : RawTx) (newPageNumber : Nat) : Option Tx := do
  let outputs ← Outputs.new raw.inputs newPageNumber
  let totalSize ← raw.computeSize
  return ⟨raw, totalSize, outputs⟩

/-- `validate:tx`. -/
def validate [Cheetah] (tx : Tx) : Option Bool := do
  if !(← tx.rawTx.validate) then return false
  if !tx.outputs.validate then return false
  return tx.totalSize = (← tx.rawTx.computeSize)

end Tx

end V0

end Nockchain.TxEngine
