import Nockchain.TxEngine.V1

/-!
# `Nockchain.TxEngine.Page`: pages and their coinbase notes

A page is a block: it names its parent and the ids of its transactions, and
splits the reward for mining it. The two versions of `$page` differ in the
split, by m-of-n locks or by the hash of a key, so the version of a page is that
of its split. The coinbase notes of a page are named after its parent.

The proof of work is a noun that only its own checks look into. `local-page`,
the form in which a page is stored, differs in nothing else, and a page stands
for it here.
-/

set_option autoImplicit false

namespace Nockchain.TxEngine

open Lib

/-!
## Processing transactions against a balance

`tx-engine.hoon`: transactions of either version, and the accumulator (`tx-acc`)
that applies them to a balance one after the other. `process` validates a
transaction, adds its outputs to the balance, removes its inputs and collects
its fees; a transaction that is refused, or on which anything crashes, leaves a
term and no new accumulator.
-/

section

/-- `$blockchain-constants`: the parameters of the chain that the modelled functions read, with
their values on the main network. -/
structure BlockchainConstants where
  v1Phase : Nat := 39000
  dataMaxSize : Nat := 2048
  dataMinFee : Nat := 256
  baseFee : Nat := 2 ^ 15
  maxBlockSize : Nat := 8000000
  blocksPerEpoch : Nat := 2016
  targetEpochDuration : Nat := 14 * 24 * 60 * 60
  maxFutureTimestamp : Nat := 60 * 120
  minPastBlocks : Nat := 11
  genesisTargetAtom : Nat := (basePrime ^ 5 - 1) / 2 ^ 14
  maxTargetAtom : Nat := basePrime ^ 5 - 1
  checkPowFlag : Bool := true
  powLen : Nat := 64
  coinbaseTimelockMin : Nat := 100
  maxCoinbaseSplit : Nat := 2
  firstMonthCoinbaseMin : Nat := 4383
  updateCandidateInterval : Nat := 300 * 2 ^ 64

variable [Tip5]

/-- `$nnote`. -/
abbrev Nnote := V1.Nnote

/-- A balance: the unspent notes, by name. -/
abbrev Balance := ZMap Nname Nnote

/-- `$raw-tx`: of either version. -/
inductive RawTx where
  | v0 (raw : V0.RawTx)
  | v1 (raw : V1.RawTx)
deriving DecidableEq

namespace RawTx

instance : ToNoun RawTx where
  toNoun
    | .v0 raw => toNoun raw
    | .v1 raw => toNoun raw
  toNoun_injective := by
    -- The head of a version 0 transaction is its id, a cell; that of version 1 is an atom.
    rintro (r | r) (s | s) h
    · exact congrArg RawTx.v0 (toNoun_inj.1 h)
    · simp [toNoun] at h
    · simp [toNoun] at h
    · exact congrArg RawTx.v1 (toNoun_inj.1 h)

/-- `id:get:raw-tx`. -/
def id : RawTx → Digest
  | .v0 raw => raw.id
  | .v1 raw => raw.id

/-- `size:get:raw-tx`. -/
def size : RawTx → Option Nat
  | .v0 raw => computeSizeJam (toNoun raw)
  | .v1 raw => raw.size

/-- `input-names:get:raw-tx`. -/
def inputNames : RawTx → ZSet Nname
  | .v0 raw => raw.inputsNames
  | .v1 raw => raw.inputNames

/-- `based:raw-tx`. -/
def isBased : RawTx → Bool
  | .v0 raw => raw.isBased
  | .v1 raw => raw.isBased

/-- `compute-id:raw-tx`. -/
def computeId : RawTx → Option Digest
  | .v0 raw => raw.computeId
  | .v1 raw => raw.computeId

/-- `validate:raw-tx`. -/
def validate [Cheetah] : RawTx → Option Bool
  | .v0 raw => raw.validate
  | .v1 raw => raw.validate

end RawTx

/-- `$tx`: of either version. -/
inductive Tx where
  | v0 (rawTx : V0.RawTx) (totalSize : Nat) (outputs : V0.Outputs)
  | v1 (tx : V1.Tx)
deriving DecidableEq

/-- `$txs`. -/
abbrev Txs := ZMap Digest Tx

/-- `$tx-acc`. -/
structure TxAcc where
  balance : Balance
  height : Nat
  fees : Nat
  size : Nat
  txs : Txs
deriving DecidableEq

/-! ### Fees -/

/-- `count-seed-words:spend-v1`. -/
def countSeedWords (sp : V1.Spend) : Nat :=
  sp.seeds.tap.foldl (fun acc sed => acc + V1.numOfLeaves sed.dataNoun) 0

/-- `count-witness-words:spend-v1`. -/
def countWitnessWords : V1.Spend → Nat
  | .s0 s => V1.numOfLeaves (toNoun s.signature)
  | .s1 s => V1.numOfLeaves (toNoun s.witness)

/-- `calculate-min-fee:spends`. -/
def calculateMinFee (bc : BlockchainConstants) (sps : V1.Spends) : Nat :=
  let wordCount := sps.tap.foldl
    (fun acc (_, sp) => acc + (countSeedWords sp + countWitnessWords sp)) 0
  max (wordCount * bc.baseFee) bc.dataMinFee

namespace TxAcc

/-- `*tx-acc`. -/
instance : Inhabited TxAcc := ⟨∅, 0, 0, 0, ∅⟩

/-- `new:tx-acc`. -/
def new (initialBalance : Option Balance) (initialHeight : Nat) : TxAcc :=
  { (default : TxAcc) with balance := initialBalance.getD ∅, height := initialHeight }

/-! ### Version 0 -/

/-- One output of `add-outputs:v0-to-v0`. -/
def addOutputV0 (f : TxAcc) (op : V0.Output) : Reason TxAcc := do
  Reason.require (!f.balance.has op.note.name) .v0OutputAlreadyExists
  return { f with balance := f.balance.put op.note.name (.v0 op.note) }

/-- One input of `consume-inputs:v0-to-v0`. -/
def consumeInputV0 (acc : TimelockRange × TxAcc) (ip : V0.Input) :
    Reason (TimelockRange × TxAcc) := do
  let (tir, f) := acc
  Reason.require (f.balance.get ip.note.name = some (.v0 ip.note)) .v0InputMissing
  let newTir := tir.merge (Timelock.fixAbsolute ip.note.timelock ip.note.originPage)
  return (newTir, { f with
    balance := f.balance.del ip.note.name
    fees := f.fees + ip.spend.fee })

/-- `v0-to-v0:tx-acc`. -/
def v0ToV0 [Cheetah] (form : TxAcc) (raw0 : V0.RawTx) : Reason TxAcc := do
  let newPageNumber := form.height
  let tx0 ← Reason.ofOption (V0.Tx.new raw0 newPageNumber)
  let valid ← Reason.ofOption tx0.validate
  Reason.require valid .v0TxInvalid
  let form ← tx0.outputs.val.foldlM addOutputV0 form
  let (tir, form) ← tx0.rawTx.inputs.val.foldlM consumeInputV0 (.unbounded, form)
  Reason.require (tir.check newPageNumber) .v0TimelockFailed
  let computedSize ← Reason.ofOption raw0.computeSize
  return { form with
    size := form.size + computedSize
    txs := form.txs.put tx0.rawTx.id (.v0 raw0 computedSize tx0.outputs) }

/-! ### Version 1 -/

/-- One output of `add-outputs:v1-to-v1`. -/
def addOutputV1 (f : TxAcc) (op : V1.Output) : Reason TxAcc := do
  match op.note with
  | .v0 _ => throw .v1OutputWrongNoteVersion
  | .v1 note => do
    Reason.require (!f.balance.has note.name) .v1OutputAlreadyExists
    return { f with balance := f.balance.put note.name op.note }

/-- One input of `consume-inputs:v1-to-v1`. -/
def consumeInputV1 (f : TxAcc) (nam : Nname) : Reason TxAcc := do
  Reason.require (f.balance.has nam) .v1InputMissing
  return { f with balance := f.balance.del nam }

/-- `v1-to-v1:tx-acc`. -/
def v1ToV1 [Cheetah] (bc : BlockchainConstants) (form : TxAcc) (raw1 : V1.RawTx) :
    Reason TxAcc := do
  let tx1 ← Reason.ofOption (V1.Tx.new raw1 form.height)
  let valid ← Reason.ofOption tx1.validate
  Reason.require valid .v1TxInvalid
  V1.Spends.validateWithContext form.balance raw1.spends form.height bc.dataMaxSize
  Reason.require (calculateMinFee bc raw1.spends ≤ raw1.spends.rollFees) .v1InsufficientFee
  let form ← tx1.outputs.tap.foldlM addOutputV1 form
  let form ← raw1.spends.key.tap.foldlM consumeInputV1 form
  let form := { form with fees := form.fees + raw1.spends.rollFees }
  let size ← Reason.ofOption raw1.size
  let id ← Reason.ofOption raw1.computeId
  return { form with
    size := form.size + size
    txs := form.txs.put id (.v1 tx1) }

/-! ### Either version -/

/-- `dispatch:tx-acc`. -/
def dispatch [Cheetah] (bc : BlockchainConstants) (form : TxAcc) : RawTx → Reason TxAcc
  | .v0 raw => if bc.v1Phase ≤ form.height then throw .v0TxAfterCutoff else v0ToV0 form raw
  | .v1 raw => if form.height < bc.v1Phase then throw .v1TxBeforeActivation
      else v1ToV1 bc form raw

/-- `process:tx-acc`: a crash is a refusal. -/
def process [Cheetah] (bc : BlockchainConstants) (form : TxAcc) (raw : RawTx) :
    Except Term TxAcc :=
  match (dispatch bc form raw).run with
  | some res => res
  | none => .error .processCrashedNonDeterministic

theorem process_eq_ok [Cheetah] {bc : BlockchainConstants} {form form' : TxAcc} {raw : RawTx} :
    process bc form raw = .ok form' ↔ Reason.Ok (dispatch bc form raw) form' := by
  unfold process Reason.Ok
  cases h : (dispatch bc form raw).run <;> simp

theorem exists_process_eq_ok [Cheetah] {bc : BlockchainConstants} {form : TxAcc} {raw : RawTx}
    (h : (process bc form raw).isOk) : ∃ form', process bc form raw = .ok form' := by
  cases hres : process bc form raw with
  | ok form' => exact ⟨form', rfl⟩
  | error t => simp [hres, Except.isOk, Except.toBool] at h

end TxAcc

end

/-! ### Large numbers -/

/-- `bignum`: 32-bit chunks, lowest first. -/
structure Bignum where
  p : List Nat
deriving DecidableEq, Repr, Inhabited

instance : ToNoun Bignum where
  toNoun b := toNoun (Noun.tas "bn", b.p)

namespace Bignum

/-- `rip 5`, in at most a given number of chunks. -/
def rip : Nat → Nat → List Nat
  | 0, _ => []
  | k + 1, a => if a = 0 then [] else a % 2 ^ 32 :: rip k (a / 2 ^ 32)

/-- `chunk:bignum`. -/
def chunk (a : Nat) : Bignum := ⟨if a = 0 then [0] else rip (width a) a⟩

/-- `merge:bignum`. -/
def merge (b : Bignum) : Nat := b.p.foldr (fun c n => c % 2 ^ 32 + 2 ^ 32 * n) 0

end Bignum

/-! ### Emission -/

namespace Schedule

/-- `bmonth`: blocks in a month. -/
def bmonth : Nat := 4383

/-- `byear`: blocks in a year. -/
def byear : Nat := 12 * 4383

/-- The loop of `schedule`: the rate halves every seven years. -/
def halve : Nat → Nat → Nat → Nat
  | 0, rate, _ => rate
  | k + 1, rate, blockNum =>
    if byear * 7 < blockNum then halve k (rate / 2) (blockNum - byear * 7) else rate

/-- The heights at which the rate halves before the loop starts. -/
def steps : List Nat :=
  [bmonth * 3, bmonth * 9, bmonth * 18, byear * 3, byear * 5, byear * 8, byear * 12, byear * 17,
    byear * 23]

/-- The rate of emission at a height, counted from the first block after genesis. -/
def emit (blockNum : Nat) : Nat :=
  let rate := steps.foldl (fun rate s => if s < blockNum then rate / 2 else rate) (2 ^ 16 * 2 ^ 16)
  if byear * 30 < blockNum then
    halve blockNum (rate / 2) (blockNum - byear * 30)
  else rate

/-- `schedule`: crashes where the emission does not end when it should. -/
def schedule (blockNum : Nat) : Option Nat :=
  if blockNum = 0 then some 0
  else
    let blockNum := blockNum - 1
    if 2 + byear * 191 ≤ blockNum then
      if emit blockNum = 0 then some 0 else none
    else
      if emit blockNum ≠ 0 then some (emit blockNum) else none

end Schedule

/-- `emission-calc:coinbase`. -/
def emissionCalc (pageNumber : Nat) : Option Nat := Schedule.schedule pageNumber

/-! ### Pages -/

variable [Tip5]

/-- `$coinbase-split`: the reward of a page, by lock or by the hash of a key. -/
inductive CoinbaseSplit where
  | v0 (split : ZMap Sig Nat)
  | v1 (split : ZMap Digest Nat)
deriving DecidableEq

namespace CoinbaseSplit

/-- `hashable:coinbase-split`, of the version of the page. -/
def hashable : CoinbaseSplit → Hashable
  | .v0 split => treeHashable (fun (sig, coins) => .pair sig.hashable (leafOf coins)) split.tree
  | .v1 split => treeHashable (fun (h, coins) => .pair (.hash h) (leafOf coins)) split.tree

/-- The coins of each part. -/
def coins : CoinbaseSplit → List Nat
  | .v0 split => split.val
  | .v1 split => split.val

/-- The noun of the split, as it stands in a page. -/
def noun : CoinbaseSplit → Noun
  | .v0 split => toNoun split
  | .v1 split => toNoun split

/-- `based:coinbase-split`. Version 1 reads the bound of the main network, whatever the constants
of the chain are. -/
def isBased (bc : BlockchainConstants) : CoinbaseSplit → Bool
  | .v0 split => split.wyt ≤ bc.maxCoinbaseSplit &&
      split.tap.all fun (sig, coins) => coins ≠ 0 && based coins && sig.isBased
  | .v1 split => split.wyt ≤ 2 &&
      split.tap.all fun (h, coins) => coins ≠ 0 && based coins && h.isBased

end CoinbaseSplit

/-- `$page`, of either version. -/
structure Page where
  digest : Digest
  pow : Option Noun
  parent : Digest
  txIds : ZSet Digest
  coinbase : CoinbaseSplit
  timestamp : Nat
  epochCounter : Nat
  target : Bignum
  accumulatedWork : Bignum
  height : Nat
  msg : List Nat
deriving DecidableEq

/-- What the chain needs to know of proofs of work. -/
class Pow where
  /-- `hash-proof`. -/
  hashProof : Noun → Digest
  /-- `version`, of a proof. -/
  version : Noun → Nat
  /-- `check-target:mine` of the hash of a proof, against a target. -/
  checkTarget : Noun → Bignum → Bool
  /-- `check-pow-puzzle` and `verify:nv`: a proof for a block commitment and a puzzle length. -/
  verify : Noun → Digest → Nat → Bool

namespace Page

/-- `hashable-block-commitment:page`. -/
def hashableBlockCommitment (pag : Page) : Hashable :=
  .pair (.hash pag.parent) (.pair (hashOf (treeHashable .hash pag.txIds.tree))
    (.pair (hashOf pag.coinbase.hashable) (.pair (leafOf pag.timestamp)
      (.pair (leafOf pag.epochCounter) (.pair (leafOf pag.target)
        (.pair (leafOf pag.accumulatedWork) (.pair (leafOf pag.height) (leafOf pag.msg))))))))

/-- `hashable-digest:page`. -/
def hashableDigest [Pow] (pag : Page) : Hashable :=
  .pair (unitHashable (fun pow => .hash (Pow.hashProof pow)) pag.pow) pag.hashableBlockCommitment

/-- `compute-digest:page`. -/
def computeDigest [Pow] (pag : Page) : Option Digest := hashHashable pag.hashableDigest

/-- `check-digest:page`. -/
def checkDigest [Pow] (pag : Page) : Option Bool :=
  if !pag.digest.isBased then some false
  else do return pag.digest = (← pag.computeDigest)

/-- `check-pow`: passes where the constants turn it off. -/
def checkPow [Pow] (bc : BlockchainConstants) (pag : Page) : Option Bool :=
  if !bc.checkPowFlag then some true
  else
    match pag.pow with
    | none => some false
    | some pow => do
      return Pow.verify pow (← hashHashable pag.hashableBlockCommitment) bc.powLen

/-- The hash of the proof against the target of the page. A missing proof crashes. -/
def checkPowHash [Pow] (bc : BlockchainConstants) (pag : Page) : Option Bool :=
  if !bc.checkPowFlag then some true
  else do return Pow.checkTarget (← pag.pow) pag.target

/-- `+>.pag`: after the digest and the proof in version 0, after the version and the digest in
version 1. -/
def sizedNoun (pag : Page) : Noun :=
  let rest := Noun.cell (toNoun pag.parent) (.cell (toNoun pag.txIds) (.cell pag.coinbase.noun
    (toNoun (pag.timestamp, pag.epochCounter, pag.target, pag.accumulatedWork, pag.height,
      pag.msg))))
  match pag.coinbase with
  | .v0 _ => rest
  | .v1 _ => .cell (toNoun pag.pow) rest

/-- `compute-size-without-txs:page`: with the largest digest and proof. -/
def computeSizeWithoutTxs (pag : Page) : Option Nat := do
  return 403 + 1000000 + (← computeSizeJam pag.sizedNoun)

/-- `compare-heaviness:page`. -/
def compareHeaviness (pag1 pag2 : Page) : Bool :=
  pag2.accumulatedWork.merge < pag1.accumulatedWork.merge

/-- `compute-work:page`. -/
def computeWork (bc : BlockchainConstants) (target : Bignum) : Bignum :=
  .chunk (bc.maxTargetAtom / (target.merge + 1))

end Page

/-! ### Coinbases -/

namespace Coinbase

/-- `coinbase-timelock` and `first-month-coinbase-timelock`: a lock for a number of pages. -/
def lockFor (pages : Nat) : Option TimelockIntent :=
  Timelock.convertFromIntent (some ⟨.unbounded, .new (some pages) none⟩)

/-- The timelock of the version 0 coinbases of a page. -/
def timelock (bc : BlockchainConstants) (height : Nat) : Option TimelockIntent :=
  if height < bc.firstMonthCoinbaseMin then lockFor 4383 else lockFor bc.coinbaseTimelockMin

/-- `validate:coinbase`, version 0. -/
def validateV0 (bc : BlockchainConstants) (pag : Page) (note : V0.Nnote) : Bool :=
  note.source.isCoinbase && note.source.p = pag.parent && timelock bc pag.height = note.timelock

/-- `new:coinbase`, version 0. -/
def newV0 (bc : BlockchainConstants) (pag : Page) (split : ZMap Sig Nat) (lok : Sig) :
    Option Nnote := do
  let reward ← split.get lok
  let timelock := timelock bc pag.height
  let name ← V0.newNname lok ⟨pag.parent, true⟩ timelock
  let note : V0.Nnote :=
    { originPage := pag.height, timelock, name, sig := lok, source := ⟨pag.parent, true⟩,
      assets := reward }
  guard (validateV0 bc pag note)
  return .v0 note

/-- `tim-lp:coinbase`. -/
def timLp (bc : BlockchainConstants) : V1.LockPrimitive :=
  .tim ⟨⟨some bc.coinbaseTimelockMin, none⟩, .unbounded⟩

/-- `make-name:coinbase`. The lock has one condition, so that the root of its tree is the hash of
that condition. -/
def makeName (bc : BlockchainConstants) (pkhHashes : ZSet Digest) (parent : Digest) :
    Option Nname := do
  let lk : V1.SpendCondition := [.pkh ⟨pkhHashes.wyt, pkhHashes⟩, timLp bc]
  let root ← lk.hash
  V1.newNname root ⟨parent, true⟩

/-- `new:coinbase`, version 1. -/
def newV1 (bc : BlockchainConstants) (pag : Page) (split : ZMap Digest Nat)
    (pkhHashes : ZSet Digest) : Option Nnote := do
  let reward ← pkhHashes.tap.foldlM (fun acc h => do return acc + (← split.get h)) 0
  let name ← makeName bc pkhHashes pag.parent
  return .v1 { originPage := pag.height, name, noteData := ∅, assets := reward }

end Coinbase

end Nockchain.TxEngine
