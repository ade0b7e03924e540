import Nockchain.TxEngine.Page

/-!
# `Nockchain.Consensus.State`: the consensus state and its mempool

The state of `consensus.hoon` and the arms that move transactions and blocks
through it. A block waits in `pending-blocks` for its transactions and moves to
`blocks` when it is accepted; a transaction waits in `raw-txs`.
`blocks-needed-by` says which blocks need a transaction, `excluded-txs` which
transactions no block needs, `spent-by` which transactions spend a note.

Every arm that changes the state returns a new one, and asserts what it needs:
an assertion that fails is `none`.
-/

set_option autoImplicit false

namespace Nockchain.Consensus

open Lib TxEngine

section

variable [Tip5]

/-- `consensus-state`. -/
structure State where
  blocksNeededBy : ZMap Digest (ZSet Digest)
  excludedTxs : ZSet Digest
  spentBy : ZMap Nname (ZSet Digest)
  pendingBlocks : ZMap Digest (Page × Nat)
  balance : ZMap Digest Balance
  txs : ZMap Digest Txs
  rawTxs : ZMap Digest (RawTx × Nat)
  blocks : ZMap Digest Page
  heaviestBlock : Option Digest
  minTimestamps : ZMap Digest Nat
  epochStart : ZMap Digest Digest
  targets : ZMap Digest Bignum

namespace State

/-- The state in which a node starts. -/
instance : Inhabited State :=
  ⟨⟨∅, ∅, ∅, ∅, ∅, ∅, ∅, ∅, none, ∅, ∅, ∅⟩⟩

/-- The reasons that `apt` gives. -/
inductive Inapt where
  | inaptBlocksNeededBy
  | inaptExcludedTxs
  | inaptSpentBy
  | inaptPendingBlocks
  | inaptBalance
  | inaptTxs
  | extraExcludedTxs
  | excludedTxsArent
  | txsFellThroughCracks
deriving DecidableEq, Repr

/-- `apt`. -/
def apt (c : State) : Option Inapt :=
  if !c.blocksNeededBy.apt then some .inaptBlocksNeededBy
  else if !c.excludedTxs.apt then some .inaptExcludedTxs
  else if !c.spentBy.apt then some .inaptSpentBy
  else if !c.pendingBlocks.apt then some .inaptPendingBlocks
  else if !c.balance.apt then some .inaptBalance
  else if !c.txs.apt then some .inaptTxs
  else if c.excludedTxs ≠ c.excludedTxs.int c.rawTxs.key then some .extraExcludedTxs
  else if c.excludedTxs.int c.blocksNeededBy.key ≠ ∅ then some .excludedTxsArent
  else if c.excludedTxs ≠ c.rawTxs.key.dif c.blocksNeededBy.key then some .txsFellThroughCracks
  else none

/-- `repair`: crashes on a reason for which it has no case. Its other case is
`%extra-included-txs`, which `apt` does not give. -/
def repair (c : State) : Inapt → Option State
  | .excludedTxsArent | .txsFellThroughCracks =>
    -- the source takes the keys of the difference of the maps
    some { c with excludedTxs := c.rawTxs.key.dif c.blocksNeededBy.key }
  | _ => none

/-- `check-and-repair`: `none` where `repair` crashes, and where the rounds given are not
enough. -/
def checkAndRepair : Nat → State → Option State
  | 0, _ => none
  | n + 1, c =>
    match c.apt with
    | none => some c
    | some reason => (c.repair reason).bind (checkAndRepair n)

/-! ### Lookups -/

/-- `get-raw-tx`. -/
def getRawTx (c : State) (tid : Digest) : Option RawTx := (c.rawTxs.get tid).map Prod.fst

/-- `get-cur-height`: crashes before the first block. -/
def getCurHeight (c : State) : Option Nat := do
  let heaviest ← c.heaviestBlock
  let pag ← c.blocks.get heaviest
  return pag.height

/-- `get-cur-balance`. -/
def getCurBalance (c : State) : Option Balance :=
  match c.heaviestBlock with
  | none => some ∅
  | some heaviest => c.balance.get heaviest

/-- `inputs-in-heaviest-balance`. -/
def inputsInHeaviestBalance (c : State) (raw : RawTx) : Option Bool := do
  let balance ← c.getCurBalance
  return raw.inputNames.dif balance.key = ∅

/-- The transactions of a page that are not in `raw-txs`. -/
def needed (c : State) (pag : Page) : ZSet Digest :=
  pag.txIds.rep (fun txId needed => if c.rawTxs.has txId then needed else needed.put txId) ∅

/-- `missing-tx-ids`: the transactions of pending blocks that are not in `raw-txs`. -/
def missingTxIds (c : State) : List Digest :=
  (c.pendingBlocks.rep (fun (_, pag, _) (all : ZSet Digest) =>
    pag.txIds.rep (fun txId all => if c.rawTxs.has txId then all else all.put txId) all) ∅).tap

/-! ### Blocks -/

/-- What accepting a block, or making it pending, does for one of its transactions. -/
def needTx (digest : Digest) (txId : Digest) (c : State) : State :=
  { c with
    blocksNeededBy := ZJug.put c.blocksNeededBy txId digest
    excludedTxs := c.excludedTxs.del txId }

/-- `accept-block`. -/
def acceptBlock (c : State) (pag : Page) : Option State := do
  guard (!c.blocks.has pag.digest)
  guard (!c.pendingBlocks.has pag.digest)
  let c := { c with blocks := c.blocks.put pag.digest pag }
  return pag.txIds.rep (needTx pag.digest) c

/-- `add-pending-block`: with the transactions that are missing. Where none is, the state is left
as it is. -/
def addPendingBlock (c : State) (pag : Page) : Option (List Digest × State) := do
  guard (!c.blocks.has pag.digest)
  guard (!c.pendingBlocks.has pag.digest)
  let needed := c.needed pag
  if needed = ∅ then return ([], c)
  let height ← c.getCurHeight
  let c := { c with pendingBlocks := c.pendingBlocks.put pag.digest (pag, height) }
  return (needed.tap, pag.txIds.rep (needTx pag.digest) c)

/-- What rejecting a block does for one of its transactions. -/
def unneedTx (digest : Digest) (txId : Digest) (c : State) : State :=
  let c := { c with blocksNeededBy := ZJug.del c.blocksNeededBy txId digest }
  if !c.blocksNeededBy.has txId && c.rawTxs.has txId then
    { c with excludedTxs := c.excludedTxs.put txId }
  else c

/-- `reject-pending-block`. -/
def rejectPendingBlock (c : State) (blockId : Digest) : Option State := do
  guard (!c.blocks.has blockId)
  let (pag, _) ← c.pendingBlocks.get blockId
  let c := pag.txIds.rep (unneedTx pag.digest) c
  return { c with pendingBlocks := c.pendingBlocks.del pag.digest }

/-- `accept-pending-block`. -/
def acceptPendingBlock (c : State) (blockId : Digest) : Option State := do
  guard (!c.blocks.has blockId)
  let (pag, _) ← c.pendingBlocks.get blockId
  return { c with
    pendingBlocks := c.pendingBlocks.del pag.digest
    blocks := c.blocks.put blockId pag }

/-! ### Transactions -/

/-- `add-raw-tx`: with the pending blocks that now have all their transactions. -/
def addRawTx (c : State) (raw : RawTx) : Option (List Digest × State) := do
  let txId := raw.id
  guard (!c.rawTxs.has txId)
  let height ← c.getCurHeight
  let c := { c with
    rawTxs := c.rawTxs.put txId (raw, height)
    spentBy := raw.inputNames.rep (fun nname sb => ZJug.put sb nname txId) c.spentBy }
  let bnb := ZJug.get c.blocksNeededBy txId
  if bnb = ∅ then return ([], { c with excludedTxs := c.excludedTxs.put txId })
  let readyBlocks := bnb.rep (fun blockId ready =>
    match c.pendingBlocks.get blockId with
    | none => ready
    | some (pag, _) => if c.needed pag = ∅ then blockId :: ready else ready) []
  return (readyBlocks, c)

/-- `drop-tx`: crashes on a transaction that a block needs. -/
def dropTx (c : State) (txId : Digest) : Option State := do
  guard (!c.blocksNeededBy.has txId)
  guard (c.excludedTxs.has txId)
  let (raw, _) ← c.rawTxs.get txId
  return { c with
    rawTxs := c.rawTxs.del txId
    excludedTxs := c.excludedTxs.del txId
    spentBy := raw.inputNames.rep (fun nname sb => ZJug.del sb nname raw.id) c.spentBy }

end State

end

/-!
## Validating and accepting pages

The arms of `consensus.hoon` that check a page against the chain and enter it:
`validate-page-with-txs` runs the page's transactions over the balance of its
parent, `accept-page` records the balance, the epoch, the timestamps and the
target that its children will be checked against. Garbage collection, which a
new heaviest block triggers, is here too.
-/

variable [Tip5]

/-- The terms with which `validate-page-without-txs` and `validate-page-with-txs` refuse a
page. -/
inductive PageTerm where
  | proofVersionInvalid
  | pageDigestInvalid2
  | pageEpochInvalid
  | powTargetCheckFailed
  | pageTimestampInvalid
  | pageTargetInvalid
  | pageHeightInvalid
  | genesisSealNotSet
  | checkpointMatchFailed
  | pageHeavinessInvalid
  | coinbaseSplitNotBased
  | msgTooLarge
  | msgNotValid
  | blockTooLarge
  | balanceTransferFailed
  | improperSplit
deriving DecidableEq, Repr

/-- The loop of `median`: drop the ends of a sorted list until one or two elements remain. -/
def medianLoop : Nat → List Nat → Option Nat
  | _, [] => none
  | _, [a] => some a
  | _, [a, b] => some ((a + b) / 2)
  | 0, _ => none
  | k + 1, _ :: rest => medianLoop k rest.dropLast

/-- `median`. -/
def median (xs : List Nat) : Option Nat := medianLoop xs.length (xs.insertionSort (· ≤ ·))

namespace State

/-! ### Targets and timestamps -/

/-- `compute-target-raw`. -/
def computeTargetRaw (bc : BlockchainConstants) (epochDur : Nat) (prevTarget : Bignum) : Bignum :=
  let quarterTed := bc.targetEpochDuration / 4
  let quadrupleTed := bc.targetEpochDuration * 4
  let cappedEpochDur :=
    if epochDur < quarterTed then quarterTed
    else if quadrupleTed < epochDur then quadrupleTed
    else epochDur
  let nextTargetAtom := prevTarget.merge * cappedEpochDur / bc.targetEpochDuration
  if bc.maxTargetAtom < nextTargetAtom then .chunk bc.maxTargetAtom else .chunk nextTargetAtom

/-- `compute-epoch-duration`: crashes on a negative one. -/
def computeEpochDuration (c : State) (lastBlock : Digest) : Option Nat := do
  let prevLastBlock ← c.epochStart.get lastBlock
  let epochStart ← c.minTimestamps.get prevLastBlock
  let epochEnd ← c.minTimestamps.get lastBlock
  guard (epochStart ≤ epochEnd)
  return epochEnd - epochStart

/-- `compute-target`. Dividing by a target duration of zero crashes. -/
def computeTarget (bc : BlockchainConstants) (c : State) (bid : Digest) (prevTarget : Bignum) :
    Option Bignum := do
  let epochDur ← c.computeEpochDuration bid
  guard (bc.targetEpochDuration ≠ 0)
  return computeTargetRaw bc epochDur prevTarget

/-- The loop of `update-min-timestamps`: the timestamps of a page and of up to `b` of its
ancestors, the oldest first. -/
def prevTimestamps (c : State) : Nat → Page → List Nat → Option (List Nat)
  | 0, curBlock, acc => some (curBlock.timestamp :: acc)
  | b + 1, curBlock, acc =>
    if curBlock.height = 0 then some (curBlock.timestamp :: acc)
    else do
      let parent ← c.blocks.get curBlock.parent
      prevTimestamps c b parent (curBlock.timestamp :: acc)

/-- `update-min-timestamps`. -/
def updateMinTimestamps (bc : BlockchainConstants) (c : State) (pag : Page) :
    Option (ZMap Digest Nat) := do
  guard (bc.minPastBlocks ≠ 0)
  let timestamps ← c.prevTimestamps (bc.minPastBlocks - 1) pag []
  let minTimestamp ← median timestamps
  return c.minTimestamps.put pag.digest minTimestamp

/-! ### Validation -/

/-- `check-size`: crashes where a transaction is missing. -/
def checkSize (bc : BlockchainConstants) (c : State) (pag : Page) : Option Bool := do
  let pageSize ← pag.computeSizeWithoutTxs
  let txsSize ← pag.txIds.tap.foldlM
    (fun sum txId => do
      let raw ← c.getRawTx txId
      return sum + (← raw.size)) 0
  return pageSize + txsSize ≤ bc.maxBlockSize

/-- The loop of `validate-page-with-txs`; an empty unit is skipped. The id of a refused
transaction is computed for the log. -/
def balanceTransfer [Cheetah] (bc : BlockchainConstants) :
    List (Option RawTx) → TxAcc → Option (Option TxAcc)
  | [], acc => some (some acc)
  | none :: rawTxList, acc => balanceTransfer bc rawTxList acc
  | some raw :: rawTxList, acc =>
    match acc.process bc raw with
    | .ok newAcc => balanceTransfer bc rawTxList newAcc
    | .error _ => do
      let _ ← raw.computeId
      return none

/-- `validate-page-with-txs`. -/
def validatePageWithTxs [Cheetah] (bc : BlockchainConstants) (c : State) (pag : Page) :
    Option (Except PageTerm TxAcc) := do
  if !(← c.checkSize bc pag) then return .error .blockTooLarge
  let rawTxSet : ZSet (Option RawTx) := pag.txIds.run c.getRawTx
  let acc := TxAcc.new (c.balance.get pag.parent) pag.height
  match ← balanceTransfer bc rawTxSet.tap acc with
  | none => return .error .balanceTransferFailed
  | some acc => do
    let totalSplit := pag.coinbase.coins.foldl (fun s c => c + s) 0
    let emissionAndFees := (← emissionCalc pag.height) + acc.fees
    if emissionAndFees ≠ totalSplit then return .error .improperSplit
    return .ok acc

/-! ### Acceptance -/

/-- The coinbase notes of a page, in `accept-page`: of version 0 before the upgrade, of version 1
from it on. -/
def coinbases (bc : BlockchainConstants) (pag : Page) : Option (List Nnote) :=
  match pag.coinbase with
  | .v0 split => do
    guard (pag.height < bc.v1Phase)
    split.key.tap.mapM (Coinbase.newV0 bc pag split)
  | .v1 split => do
    guard (bc.v1Phase ≤ pag.height)
    split.key.tap.mapM fun h => Coinbase.newV1 bc pag split (ZSet.put ∅ h)

/-- The entry of `epoch-start` for a page. -/
def epochStartOf (c : State) (pag : Page) : Option Digest :=
  if pag.height = 0 then some pag.digest
  else if pag.epochCounter = 0 then some pag.parent
  else c.epochStart.get pag.parent

/-- The entry of `targets` for a page: what the target of its children has to be. -/
def targetOf (bc : BlockchainConstants) (c : State) (pag : Page) : Option Bignum :=
  if pag.epochCounter + 1 = bc.blocksPerEpoch then c.computeTarget bc pag.digest pag.target
  else if pag.height = 0 then some pag.target
  else c.targets.get pag.parent

/-- `accept-page`. -/
def acceptPage (bc : BlockchainConstants) (c : State) (pag : Page) (acc : TxAcc) :
    Option State := do
  let c := if acc.balance ≠ ∅ then
    { c with balance := c.balance.put pag.digest acc.balance } else c
  let notes ← coinbases bc pag
  let c := { c with
    balance := notes.foldl (fun bal (note : Nnote) => ZMip.put bal pag.digest note.name note) c.balance }
  let c := { c with
    txs := acc.txs.rep (fun (txId, tx) txs => ZMip.put txs pag.digest txId tx) c.txs }
  let epochStart ← c.epochStartOf pag
  let c := { c with epochStart := c.epochStart.put pag.digest epochStart }
  let minTimestamps ← c.updateMinTimestamps bc pag
  let c := { c with minTimestamps }
  let target ← c.targetOf bc pag
  let c := { c with targets := c.targets.put pag.digest target }
  if c.pendingBlocks.has pag.digest then c.acceptPendingBlock pag.digest
  else c.acceptBlock pag

/-- `update-heaviest`: the first block has to be a genesis block, a later one strictly heavier. -/
def updateHeaviest (c : State) (pag : Page) : Option State :=
  match c.heaviestBlock with
  | none => if pag.height = 0 then some { c with heaviestBlock := some pag.digest } else none
  | some heaviest => do
    let old ← c.blocks.get heaviest
    return if pag.compareHeaviness old then { c with heaviestBlock := some pag.digest } else c

/-! ### Garbage collection -/

/-- `dropable-pending-blocks`. -/
def dropablePendingBlocks (c : State) (retain : Option Nat) : Option (List Digest) :=
  match retain, c.heaviestBlock with
  | none, _ => some []
  | some _, none => some []
  | some retain, some heaviest => do
    let pag ← c.blocks.get heaviest
    if pag.height < retain then return []
    let minHeight := pag.height - retain
    return c.pendingBlocks.rep (fun (blockId, _, heardAt) dropable =>
        if heardAt ≤ minHeight then blockId :: dropable else dropable) []

/-- `drop-dropable-blocks`. -/
def dropDropableBlocks (c : State) (retain : Option Nat) : Option State := do
  (← c.dropablePendingBlocks retain).foldlM rejectPendingBlock c

/-- `dropable-txs`: excluded, and no longer spendable or heard long ago. -/
def dropableTxs (c : State) (retain : Option Nat) : Option (ZSet Digest) :=
  match c.heaviestBlock with
  | none => some ∅
  | some heaviest => do
    let pag ← c.blocks.get heaviest
    let spent ← c.excludedTxs.repM (fun txId (spent : ZSet Digest) => do
      let (raw, _) ← c.rawTxs.get txId
      return if ← c.inputsInHeaviestBalance raw then spent else spent.put txId) ∅
    match retain with
    | none => return spent
    | some retain => do
      if pag.height < retain then return spent
      let minHeight := pag.height - retain
      c.excludedTxs.repM (fun txId (dropable : ZSet Digest) => do
        let (_, heardAt) ← c.rawTxs.get txId
        return if heardAt ≤ minHeight then dropable.put txId else dropable) spent

/-- `drop-dropable-txs`. -/
def dropDropableTxs (c : State) (retain : Option Nat) : Option State := do
  (← c.dropableTxs retain).repM (fun txId c => c.dropTx txId) c

/-- `garbage-collect`. -/
def garbageCollect (c : State) (retain : Option Nat) : Option State := do
  let c ← c.dropDropableBlocks retain
  c.dropDropableTxs retain

end State

end Nockchain.Consensus
