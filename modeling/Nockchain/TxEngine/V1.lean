import Nockchain.TxEngine.V0

/-!
# `Nockchain.TxEngine.V1`: version 1 notes and transactions

The types of `tx-engine-1.hoon` that a version 1 transaction is made of. Its
spends are by the name of the note they consume and do not carry it, so that
part of their validation needs the balance (`validate-with-context:spends`). A
`%0` spend consumes a version 0 note under its m-of-n lock, a `%1` spend a
version 1 note with a witness for its lock script; the outputs of both are
version 1 notes, the seeds grouped by the root of their lock.
-/

set_option autoImplicit false

namespace Nockchain.TxEngine.V1

open Lib

/-!
## Lock scripts and their witnesses

The locks of version 1 notes, from `tx-engine-1.hoon`. A note commits to the
root of a tree of spend conditions. To spend it, a witness reveals one condition
with a merkle proof and gives what its primitives ask for: signatures by keys
with certain hashes (`%pkh`), preimages of hashes (`%hax`), a page number in a
window (`%tim`). A `%brn` is never satisfied.
-/

section

variable [Tip5]

/-- `hashable-noun`: a noun, hashed leaf by leaf. -/
def hashableNoun : Noun → Hashable
  | .atom a => .leaf (.atom a)
  | .cell h t => .pair (hashableNoun h) (hashableNoun t)

/-! ### Primitives -/

/-- `$pkh`: signatures by `m` of the keys with these hashes. -/
structure Pkh where
  m : Nat
  h : ZSet Digest
deriving DecidableEq

instance : ToNoun Pkh where
  toNoun p := toNoun (p.m, p.h)

/-- `$tim`: windows of page numbers, relative to the note's page and absolute. -/
structure Tim where
  rel : TimelockRange
  abs : TimelockRange
deriving DecidableEq

instance : ToNoun Tim where
  toNoun t := toNoun (t.rel, t.abs)

/-- `$hax`: hashes whose preimages have to be revealed. -/
abbrev Hax := ZSet Digest

/-- `$lock-primitive`. -/
inductive LockPrimitive where
  | pkh (p : Pkh)
  | tim (t : Tim)
  | hax (h : Hax)
  | brn
deriving DecidableEq

instance : ToNoun LockPrimitive where
  toNoun
    | .pkh p => .cell (.atom (Noun.tas "pkh")) (toNoun p)
    | .tim t => .cell (.atom (Noun.tas "tim")) (toNoun t)
    | .hax h => .cell (.atom (Noun.tas "hax")) (toNoun h)
    | .brn => .cell (.atom (Noun.tas "brn")) (.atom 0)
  toNoun_injective := by
    have h₁ : Noun.tas "pkh" ≠ Noun.tas "tim" := by decide
    have h₂ : Noun.tas "pkh" ≠ Noun.tas "hax" := by decide
    have h₃ : Noun.tas "pkh" ≠ Noun.tas "brn" := by decide
    have h₄ : Noun.tas "tim" ≠ Noun.tas "hax" := by decide
    have h₅ : Noun.tas "tim" ≠ Noun.tas "brn" := by decide
    have h₆ : Noun.tas "hax" ≠ Noun.tas "brn" := by decide
    rintro (x | x | x | _) (y | y | y | _) h <;> simp_all [toNoun_inj]

/-- `hashable:pkh`. -/
def Pkh.hashable (p : Pkh) : Hashable := .pair (leafOf p.m) (treeHashable .hash p.h.tree)

/-- `hashable:hax`. -/
def Hax.hashable (h : Hax) : Hashable := treeHashable .hash h.tree

/-- `hashable:tim`. -/
def Tim.hashable (t : Tim) : Hashable := .pair t.rel.hashable t.abs.hashable

/-- `hashable:lock-primitive`. -/
def LockPrimitive.hashable : LockPrimitive → Hashable
  | .tim t => .pair (leafOf (Noun.tas "tim")) t.hashable
  | .hax h => .pair (leafOf (Noun.tas "hax")) (Hax.hashable h)
  | .pkh p => .pair (leafOf (Noun.tas "pkh")) p.hashable
  | .brn => .pair (leafOf (Noun.tas "brn")) leafNull

/-- `based:lock-primitive`. -/
def LockPrimitive.isBased : LockPrimitive → Bool
  | .tim t => t.rel.isBased && t.abs.isBased
  | .hax h => h.all Digest.isBased
  | .pkh p => based p.m && p.h.all Digest.isBased
  | .brn => true

/-- `$spend-condition`: all of its primitives have to be satisfied. -/
abbrev SpendCondition := List LockPrimitive

/-- `hashable:spend-condition`. -/
def SpendCondition.hashable : SpendCondition → Hashable
  | [] => leafNull
  | p :: ps => .pair p.hashable (SpendCondition.hashable ps)

/-- `hash:spend-condition`. -/
def SpendCondition.hash (sc : SpendCondition) : Option Digest := hashHashable sc.hashable

/-- `based:spend-condition`. -/
def SpendCondition.isBased (sc : SpendCondition) : Bool := sc.all LockPrimitive.isBased

/-! ### Merkle proofs -/

/-- `merk-proof:merkle`. -/
structure MerkProof where
  root : Digest
  path : List Digest
deriving DecidableEq, Repr, Inhabited

instance : ToNoun MerkProof where
  toNoun p := toNoun (p.root, p.path)

/-- The loop of `verify-merk-proof:merkle`, from the leaf up. -/
def verifyMerkPath (root : Digest) : List Digest → Digest → Nat → Bool
  | path, leaf, 1 => root = leaf && path.isEmpty
  | [], _, _ => false
  | sib :: path, leaf, 2 => root = hashTenCell leaf sib && path.isEmpty
  | sib :: path, leaf, 3 => root = hashTenCell sib leaf && path.isEmpty
  | sib :: path, leaf, axis =>
    if axis % 2 = 0 then verifyMerkPath root path (hashTenCell leaf sib) (axis / 2)
    else verifyMerkPath root path (hashTenCell sib leaf) ((axis - 1) / 2)

/-- `verify-merk-proof:merkle`. -/
def verifyMerkProof (leaf : Digest) (axis : Nat) (proof : MerkProof) : Bool :=
  if axis = 0 then false else verifyMerkPath proof.root proof.path leaf axis

/-- `$lock-merkle-proof`. -/
structure LockMerkleProof where
  spendCondition : SpendCondition
  axis : Nat
  merkProof : MerkProof
deriving DecidableEq

instance : ToNoun LockMerkleProof where
  toNoun l := toNoun (l.spendCondition, l.axis, l.merkProof)

namespace LockMerkleProof

/-- `based:lock-merkle-proof`. -/
def isBased (l : LockMerkleProof) : Bool :=
  l.spendCondition.isBased && based l.axis && l.merkProof.root.isBased &&
    l.merkProof.path.all Digest.isBased

/-- The digest that `hashable:lock-merkle-proof` has in the place of the axis, given in base 58 in
the source. -/
def axisDigest : Digest :=
  ⟨1988594973584463658, 8158631336633700141, 2161567007650232260, 460329990575991155,
    8368574252173164961⟩

/-- The path of a merkle proof, as a hashable. -/
def pathHashable : List Digest → Hashable
  | [] => leafNull
  | d :: path => .pair (.hash d) (pathHashable path)

/-- `hashable:lock-merkle-proof`: the axis is not part of it. -/
def hashable (l : LockMerkleProof) : Hashable :=
  .pair (hashOf l.spendCondition.hashable)
    (.pair (.hash axisDigest) (.pair (.hash l.merkProof.root) (pathHashable l.merkProof.path)))

/-- `check:lock-merkle-proof`. -/
def check (l : LockMerkleProof) (parentFirstname : Digest) : Option Bool := do
  if l.axis ≠ 1 then return false
  let spendFirstname ← hashHashable (.pair (leafOf true) (.hash l.merkProof.root))
  if spendFirstname ≠ parentFirstname then return false
  let leafHash ← l.spendCondition.hash
  return verifyMerkProof leafHash l.axis l.merkProof

end LockMerkleProof

/-! ### Witnesses -/

/-- `$pkh-signature`: keys and signatures, by the hash of the key. -/
abbrev PkhSignature := ZMap Digest (SchnorrPubkey × SchnorrSignature)

namespace PkhSignature

/-- `based:pkh-signature`. -/
def isBased (p : PkhSignature) : Bool :=
  p.rep (fun (h, pk, sig) a => a && h.isBased && pk.isBased && sig.isBased) true

/-- `hashable:pkh-signature`. -/
def hashable (p : PkhSignature) : Hashable :=
  treeHashable (fun (h, pk, sig) => .pair (.hash h) (.pair (hashOf pk.hashable) sig.hashable))
    p.tree

/-- `signatures:pkh-signature`. -/
def signatures (p : PkhSignature) (sigHash : Digest) :
    List (SchnorrPubkey × Digest × SchnorrSignature) :=
  p.rep (fun (_, pk, sig) sigs => (pk, sigHash, sig) :: sigs) []

end PkhSignature

/-- `$witness`. Its fourth field, for timelocks, is always `~`. -/
structure Witness where
  lmp : LockMerkleProof
  pkh : PkhSignature
  hax : ZMap Digest Noun
deriving DecidableEq

instance : ToNoun Witness where
  toNoun w := toNoun (w.lmp, w.pkh, w.hax, 0)

namespace Witness

/-- `based:witness`. -/
def isBased (w : Witness) : Bool :=
  w.lmp.isBased && w.pkh.isBased && w.hax.rep (fun (k, _) a => a && k.isBased) true

/-- `hashable-hax:witness`. -/
def hashableHax (m : ZMap Digest Noun) : Hashable :=
  treeHashable (fun (k, v) => .pair (.hash k) (hashableNoun v)) m.tree

/-- `hashable:witness`. -/
def hashable (w : Witness) : Hashable :=
  .pair (hashOf w.lmp.hashable)
    (.pair (hashOf w.pkh.hashable) (.pair (hashOf (hashableHax w.hax)) leafNull))

end Witness

/-! ### Checking a lock -/

/-- `$check-context`: what a lock is checked against. -/
structure CheckContext where
  now : Nat
  since : Nat
  sigHash : Digest
  witness : Witness

/-- `check:tim`. -/
def Tim.check (t : Tim) (ctx : CheckContext) : Bool :=
  t.rel.min.all (fun u => ctx.since + u ≤ ctx.now) &&
  t.rel.max.all (fun u => ctx.now ≤ ctx.since + u) &&
  t.abs.min.all (fun u => u ≤ ctx.now) &&
  t.abs.max.all (fun u => ctx.now ≤ u)

/-- `hash-noun:hax`. -/
def hashNoun (n : Noun) : Option Digest := hashHashable (hashableNoun n)

/-- `check:hax`. -/
def Hax.check (h : Hax) (ctx : CheckContext) : Option Bool :=
  h.allM fun hash =>
    match ctx.witness.hax.get hash with
    | none => some false
    | some preimage => do return hash = (← hashNoun preimage)

/-- `check:pkh`. -/
def Pkh.check [Cheetah] (p : Pkh) (ctx : CheckContext) : Option Bool := do
  if p.m ≠ ctx.witness.pkh.wyt then return false
  if ctx.witness.pkh.key.dif p.h ≠ ∅ then return false
  let hashesMatch ← ctx.witness.pkh.repM
    (fun (h, pk, _) a => if a then do return h = (← hashHashable pk.hashable) else some false) true
  if !hashesMatch then return false
  return batchVerify (ctx.witness.pkh.signatures ctx.sigHash)

/-- One primitive of a spend condition, in `check:check-context`. -/
def LockPrimitive.check [Cheetah] (ctx : CheckContext) : LockPrimitive → Option Bool
  | .tim t => some (t.check ctx)
  | .hax h => Hax.check h ctx
  | .pkh p => p.check ctx
  | .brn => some false

/-- `check:check-context`. -/
def CheckContext.check [Cheetah] (ctx : CheckContext) (lock : Digest) : Option Bool := do
  if !(← ctx.witness.lmp.check lock) then return false
  ctx.witness.lmp.spendCondition.allM (LockPrimitive.check ctx)

end

variable [Tip5]

/-! ### Names and notes -/

/-- `first:nname`. -/
def nnameFirst (lock : Digest) : Option Digest :=
  hashHashable (.pair (leafOf true) (.hash lock))

/-- `last:nname`. -/
def nnameLast (source : Source) : Option Digest :=
  hashHashable (.pair (leafOf true) (.pair source.hashable leafNull))

/-- `new-v1:nname`. -/
def newNname (lock : Digest) (source : Source) : Option Nname := do
  let first ← nnameFirst lock
  let last ← nnameLast source
  return ⟨first, last⟩

/-- `$note-data`: nouns by `@tas` keys. -/
abbrev NoteData := ZMap Nat Noun

/-- `hashable:note-data`. -/
def NoteData.hashable (d : NoteData) : Hashable :=
  treeHashable (fun (k, v) => .pair (leafOf k) (hashableNoun v)) d.tree

/-- `$nnote-1`. -/
structure Nnote1 where
  originPage : Nat
  name : Nname
  noteData : NoteData
  assets : Nat
deriving DecidableEq

instance : ToNoun Nnote1 where
  toNoun n := toNoun (1, n.originPage, n.name, n.noteData, n.assets)

/-- `hashable:nnote-1`. -/
def Nnote1.hashable (n : Nnote1) : Hashable :=
  .pair (leafOf 1) (.pair (leafOf n.originPage) (.pair (hashOf n.name.hashable)
    (.pair (hashOf (NoteData.hashable n.noteData)) (leafOf n.assets))))

/-- `$nnote`: a note of either version. -/
inductive Nnote where
  | v0 (n : V0.Nnote)
  | v1 (n : Nnote1)
deriving DecidableEq

namespace Nnote

instance : ToNoun Nnote where
  toNoun
    | .v0 n => toNoun n
    | .v1 n => toNoun n
  toNoun_injective := by
    -- The head of a version 0 note is a cell, that of a version 1 note an atom.
    rintro (n | n) (m | m) h
    · exact congrArg Nnote.v0 (toNoun_inj.1 h)
    · simp [toNoun] at h
    · simp [toNoun] at h
    · exact congrArg Nnote.v1 (toNoun_inj.1 h)

/-- `hashable:nnote`. -/
def hashable : Nnote → Hashable
  | .v0 n => n.hashable
  | .v1 n => n.hashable

/-- `hash:nnote`. -/
def hash (n : Nnote) : Option Digest := hashHashable n.hashable

/-- `assets`, of a note of either version. -/
def assets : Nnote → Nat
  | .v0 n => n.assets
  | .v1 n => n.assets

/-- `name`, of a note of either version. -/
def name : Nnote → Nname
  | .v0 n => n.name
  | .v1 n => n.name

/-- `first-name:get:nnote`. -/
def firstName (n : Nnote) : Digest := n.name.first

end Nnote

/-! ### Seeds -/

/-- `$seed`, version 1. -/
structure Seed where
  outputSource : Option Source
  lockRoot : Digest
  noteData : NoteData
  gift : Nat
  parentHash : Digest
deriving DecidableEq

instance : ToNoun Seed where
  toNoun s := toNoun (s.outputSource, s.lockRoot, s.noteData, s.gift, s.parentHash)

namespace Seed

/-- `based:seed`. -/
def isBased (s : Seed) : Bool :=
  s.outputSource.all (·.p.isBased) && s.lockRoot.isBased && based s.gift && s.parentHash.isBased

/-- `hashable:seed`: all but the output source. -/
def hashable (s : Seed) : Hashable :=
  .pair (.hash s.lockRoot)
    (.pair (hashOf (NoteData.hashable s.noteData)) (.pair (leafOf s.gift) (.hash s.parentHash)))

/-- `sig-hashable:seed`. -/
def sigHashable (s : Seed) : Hashable :=
  .pair (Source.hashableUnit s.outputSource) s.hashable

/-- The note data as one noun, for its size. -/
def dataNoun (s : Seed) : Noun :=
  s.noteData.rep (fun (k, v) tree => .cell (.atom k) (.cell v tree)) (.atom 0)

end Seed

/-- `$seeds`. -/
abbrev Seeds := ZSet Seed

namespace Seeds

/-- `based:seeds`. -/
def isBased (s : Seeds) : Bool := s.rep (fun s a => a && s.isBased) true

/-- `hashable:seeds`. -/
def hashable (s : Seeds) : Hashable := treeHashable Seed.hashable s.tree

/-- `sig-hashable:seeds`. -/
def sigHashable (s : Seeds) : Hashable := treeHashable Seed.sigHashable s.tree

/-- `hash:seeds`. -/
def hash (s : Seeds) : Option Digest := hashHashable s.hashable

end Seeds

/-! ### Spends -/

/-- `$spend-0`: a version 0 note spent into version 1 notes. -/
structure Spend0 where
  signature : Signature
  seeds : Seeds
  fee : Nat
deriving DecidableEq

instance : ToNoun Spend0 where
  toNoun s := toNoun (s.signature, s.seeds, s.fee)

/-- `$spend-1`: a version 1 note spent with a witness. -/
structure Spend1 where
  witness : Witness
  seeds : Seeds
  fee : Nat
deriving DecidableEq

instance : ToNoun Spend1 where
  toNoun s := toNoun (s.witness, s.seeds, s.fee)

/-- `sig-hash`, of both kinds of spend: what is signed. -/
def sigHashOf (seeds : Seeds) (fee : Nat) : Option Digest :=
  hashHashable (.pair seeds.sigHashable (leafOf fee))

namespace Spend0

/-- `sig-hash:spend-0`. -/
def sigHash (sen : Spend0) : Option Digest := sigHashOf sen.seeds sen.fee

/-- `signatures:spend-0`. -/
def signatures (sen : Spend0) : Option (List (SchnorrPubkey × Digest × SchnorrSignature)) :=
  sen.signature.tap.mapM fun (pk, sg) => do return (pk, ← sen.sigHash, sg)

/-- `verify-signatures:spend-0`. -/
def verifySignatures [Cheetah] (sen : Spend0) : Option Bool := do
  return batchVerify (← sen.signatures)

/-- `verify-without-signatures:spend-0`. -/
def verifyWithoutSignatures (sen : Spend0) (parentNote : V0.Nnote) : Option Bool := do
  let parentHash ← parentNote.hash
  if !sen.seeds.all (fun sed => sed.parentHash = parentHash) then return false
  let havePks := sen.signature.key
  if havePks.wyt < parentNote.sig.m then return parentNote.sig.pubkeys = havePks
  return parentNote.sig.pubkeys.int havePks = havePks

/-- `verify:spend-0`. -/
def verify [Cheetah] (sen : Spend0) (parentNote : V0.Nnote) : Option Bool := do
  if !(← sen.verifyWithoutSignatures parentNote) then return false
  sen.verifySignatures

/-- `validate-basic:spend-0`. -/
def validateBasic (sen : Spend0) : Bool :=
  sen.seeds.isBased && based sen.fee && sen.seeds ≠ ∅

/-- `hashable:spend-0`. -/
def hashable (sen : Spend0) : Hashable :=
  .pair (Signature.hashable sen.signature) (.pair sen.seeds.hashable (leafOf sen.fee))

end Spend0

namespace Spend1

/-- `sig-hash:spend-1`. -/
def sigHash (sen : Spend1) : Option Digest := sigHashOf sen.seeds sen.fee

/-- `verify-signatures:spend-1`. -/
def verifySignatures [Cheetah] (sen : Spend1) : Option Bool := do
  return batchVerify (sen.witness.pkh.signatures (← sen.sigHash))

/-- `validate-basic:spend-1`. -/
def validateBasic (sen : Spend1) : Bool :=
  sen.witness.isBased && sen.seeds.isBased && based sen.fee && sen.seeds ≠ ∅

/-- `hashable:spend-1`. -/
def hashable (sen : Spend1) : Hashable :=
  .pair sen.witness.hashable (.pair sen.seeds.hashable (leafOf sen.fee))

end Spend1

/-- `$spend`, version 1. -/
inductive Spend where
  | s0 (s : Spend0)
  | s1 (s : Spend1)
deriving DecidableEq

namespace Spend

instance : ToNoun Spend where
  toNoun
    | .s0 s => .cell (.atom 0) (toNoun s)
    | .s1 s => .cell (.atom 1) (toNoun s)
  toNoun_injective := by
    rintro (s | s) (t | t) h <;> simp_all [toNoun_inj]

/-- `seeds`, of either kind of spend. -/
def seeds : Spend → Seeds
  | .s0 s => s.seeds
  | .s1 s => s.seeds

/-- `fee`, of either kind of spend. -/
def fee : Spend → Nat
  | .s0 s => s.fee
  | .s1 s => s.fee

/-- `hashable:spend`. -/
def hashable : Spend → Hashable
  | .s0 s => .pair (leafOf 0) s.hashable
  | .s1 s => .pair (leafOf 1) s.hashable

/-- `validate-without-signatures:spend`. -/
def validateWithoutSignatures : Spend → Bool
  | .s0 s => s.validateBasic
  | .s1 s => s.validateBasic

/-- The fee and the gifts, as `check-gifts-and-fee:spend` adds them. -/
def giftsAndFee (sp : Spend) : Nat :=
  sp.fee + sp.seeds.tap.foldl (fun acc seed => acc + seed.gift) 0

/-- `check-gifts-and-fee:spend`. -/
def checkGiftsAndFee (sp : Spend) (parent : Nnote) : Bool := sp.giftsAndFee = parent.assets

/-- `verify-signatures`, of either kind of spend. -/
def verifySignatures [Cheetah] : Spend → Option Bool
  | .s0 s => s.verifySignatures
  | .s1 s => s.verifySignatures

/-- `based-spend:based:raw-tx`. -/
def isBased : Spend → Bool
  | .s0 s => Signature.isBased s.signature && s.seeds.isBased && based s.fee
  | .s1 s => s.witness.isBased && s.seeds.isBased && based s.fee

end Spend

/-- `num-of-leaves:shape`. -/
def numOfLeaves : Noun → Nat
  | .atom _ => 1
  | .cell h t => numOfLeaves h + numOfLeaves t

/-- `$spends`, by the name of the note that is spent. -/
abbrev Spends := ZMap Nname Spend

namespace Spends

/-- `hashable:spends`. -/
def hashable (sps : Spends) : Hashable :=
  treeHashable (fun (nam, sp) => .pair nam.hashable sp.hashable) sps.tree

/-- `based-spends:based:raw-tx`. -/
def isBased (sps : Spends) : Bool :=
  sps.rep (fun (nam, sp) ok => ok && nam.isBased && sp.isBased) true

/-- One spend of `validate-with-context:spends`. -/
def validateSpendWithContext [Cheetah] (balance : ZMap Nname Nnote) (pageNum maxSize : Nat)
    (nam : Nname) (sp : Spend) : Reason Unit := do
  Reason.require (!sp.seeds.tap.any fun sed => maxSize < numOfLeaves sed.dataNoun)
    .v1NoteDataExceedsMaxSize
  match balance.get nam with
  | none => throw .v1InputMissing
  | some note =>
    match sp, note with
    | .s0 _, .v1 _ => throw .v1SpendVersionMismatch
    | .s0 s, .v0 note0 => do
      let verified ← Reason.ofOption (s.verify note0)
      Reason.require verified .v1Spend0VerifyFailed
      Reason.require (sp.checkGiftsAndFee note) .v1Spend0GiftsFailed
    | .s1 _, .v0 _ => throw .v1SpendVersionMismatch
    | .s1 s, .v1 note1 => do
      let sigHash ← Reason.ofOption s.sigHash
      let ctx : CheckContext :=
        { now := pageNum, since := note1.originPage, sigHash, witness := s.witness }
      let checked ← Reason.ofOption (ctx.check note1.name.first)
      Reason.require checked .v1Spend1LockFailed
      Reason.require (sp.checkGiftsAndFee note) .v1Spend1GiftsFailed

/-- `validate-with-context:spends`. -/
def validateWithContext [Cheetah] (balance : ZMap Nname Nnote) (sps : Spends)
    (pageNum maxSize : Nat) : Reason Unit :=
  sps.tap.forM fun (nam, sp) => validateSpendWithContext balance pageNum maxSize nam sp

/-- `verify-signatures:spends`. -/
def verifySignatures [Cheetah] (sps : Spends) : Option Bool :=
  sps.tap.allM fun (_, sp) => sp.verifySignatures

/-- `validate:spends`. -/
def validate [Cheetah] (sps : Spends) : Option Bool := do
  if sps = ∅ then return false
  if !(← sps.verifySignatures) then return false
  return sps.tap.all fun (_, sp) => sp.validateWithoutSignatures

/-- `roll-fees:spends`. -/
def rollFees (sps : Spends) : Nat := sps.val.foldl (fun acc sp => acc + sp.fee) 0

end Spends

/-! ### Transactions -/

/-- `$raw-tx`, version 1. -/
structure RawTx where
  id : Digest
  spends : Spends
deriving DecidableEq

instance : ToNoun RawTx where
  toNoun r := toNoun (1, r.id, r.spends)

namespace RawTx

/-- `compute-id:raw-tx`. -/
def computeId (raw : RawTx) : Option Digest :=
  hashHashable (.pair (leafOf 1) raw.spends.hashable)

/-- `based:raw-tx`. -/
def isBased (raw : RawTx) : Bool := raw.id.isBased && raw.spends.isBased

/-- `validate:raw-tx`. -/
def validate [Cheetah] (raw : RawTx) : Option Bool := do
  if !raw.isBased then return false
  if raw.id ≠ (← raw.computeId) then return false
  raw.spends.validate

/-- `size:get:raw-tx`. -/
def size (raw : RawTx) : Option Nat := computeSizeJam (toNoun raw)

/-- `input-names:get:raw-tx`. -/
def inputNames (raw : RawTx) : ZSet Nname := raw.spends.key

end RawTx

/-- `$output`, version 1. -/
structure Output where
  note : Nnote
  seeds : Seeds
deriving DecidableEq

instance : ToNoun Output where
  toNoun o := toNoun (o.note, o.seeds)

/-- `validate:output`: crashes on a version 0 note. -/
def Output.validate (out : Output) : Option Bool := do
  match out.note with
  | .v0 _ => none
  | .v1 note => do
    let sourceCheck ← out.seeds.tap.allM fun seed =>
      match seed.outputSource with
      | none => some true
      | some u => do return (← nnameLast u) = note.name.last
    let assetsCheck := out.seeds.tap.foldl (fun acc seed => seed.gift + acc) 0 = note.assets
    return sourceCheck && assetsCheck

/-- `$outputs`. -/
abbrev Outputs := ZSet Output

/-- `validate:outputs`. -/
def Outputs.validate (outs : Outputs) : Option Bool := outs.tap.allM Output.validate

/-- `$tx`, version 1. -/
structure Tx where
  rawTx : RawTx
  totalSize : Nat
  outputs : Outputs
deriving DecidableEq

namespace Tx

/-- The seeds of an output without their sources, which its own source is the hash of. -/
def normalize (s : Seeds) : Seeds :=
  ZSet.gas ∅ (s.tap.map fun s => { s with outputSource := none })

/-- One seed of `build-outputs:new:tx`. The note data of an output is that of its first seed. -/
def addSeed (pageNumber : Nat) (acc : ZMap Digest Output) (sed : Seed) :
    Option (ZMap Digest Output) := do
  match acc.get sed.lockRoot with
  | some child =>
    let newSeeds := child.seeds.put sed
    let srcHash ← (normalize newSeeds).hash
    match child.note with
    | .v0 _ => none
    | .v1 note =>
      let name ← newNname sed.lockRoot ⟨srcHash, false⟩
      return acc.put sed.lockRoot
        ⟨.v1 { note with assets := note.assets + sed.gift, name }, newSeeds⟩
  | none =>
    let sh ← Seeds.hash (ZSet.put ∅ { sed with outputSource := none })
    let name ← newNname sed.lockRoot ⟨sh, false⟩
    return acc.put sed.lockRoot
      ⟨.v1 { originPage := pageNumber, name, noteData := sed.noteData, assets := sed.gift },
        ZSet.put ∅ sed⟩

/-- `build-outputs:new:tx`. -/
def buildOutputs (raw : RawTx) (pageNumber : Nat) : Option Outputs := do
  let children ← raw.spends.tap.foldlM
    (fun children (_, sp) => sp.seeds.tap.foldlM (addSeed pageNumber) children) ∅
  return ZSet.gas ∅ children.val

/-- `new:tx`. -/
def new (raw : RawTx) (pageNumber : Nat) : Option Tx := do
  let outputs ← buildOutputs raw pageNumber
  let totalSize ← raw.size
  return ⟨raw, totalSize, outputs⟩

/-- `validate:tx`. -/
def validate [Cheetah] (tx : Tx) : Option Bool := do
  if !(← tx.rawTx.validate) then return false
  if !(← tx.outputs.validate) then return false
  return tx.totalSize = (← tx.rawTx.size)

end Tx

end Nockchain.TxEngine.V1
