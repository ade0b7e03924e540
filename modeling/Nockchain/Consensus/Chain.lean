import Nockchain.Consensus.State

/-!
# `Nockchain.Consensus.Chain`: the checks before a page, and the runs of a node

`validate-page-without-txs` checks a page against its parent, `check-genesis` a
page that has none. With them, `Step` is what `inner.hoon` does to the consensus
state when it hears blocks and transactions, one arm of `consensus.hoon` at a
time and in any order: an arm is called on what its caller has checked.
-/

set_option autoImplicit false

namespace Nockchain.Consensus

open Lib TxEngine

/-!
## The index of the heaviest chain

`derived.hoon` keeps two things that it computes from the consensus state: the
greatest height of a block heard so far, and for each height the block of the
heaviest chain. After each accepted block `update` walks back from the heaviest
block and rewrites the entries, until it meets one that is right already.
-/

section

variable [Tip5]

/-- `derived-state`. -/
structure Derived where
  highestBlockHeight : Option Nat
  heaviestChain : ZMap Nat Digest

namespace Derived

instance : Inhabited Derived := ⟨⟨none, ∅⟩⟩

/-- `update-highest`. -/
def updateHighest (d : Derived) (height : Nat) : Derived :=
  let newHighest := match d.highestBlockHeight with
    | none => height
    | some highest => if highest < height then height else highest
  { d with highestBlockHeight := some newHighest }

/-- The loop of `update`, from the block `nextParent` of height `nextHeight` downwards. It stops
at the first entry that is right. -/
def revise (c : State) : Nat → Digest → ZMap Nat Digest → Option (ZMap Nat Digest)
  | 0, nextParent, heaviestChain =>
    if heaviestChain.get 0 = some nextParent then some heaviestChain
    else some (heaviestChain.put 0 nextParent)
  | nextHeight + 1, nextParent, heaviestChain =>
    if heaviestChain.get (nextHeight + 1) = some nextParent then some heaviestChain
    else do
      let heaviestChain := heaviestChain.put (nextHeight + 1) nextParent
      let pag ← c.blocks.get nextParent
      revise c nextHeight pag.parent heaviestChain

/-- `update`: crashes where an ancestor of the heaviest block is missing. -/
def update (d : Derived) (c : State) (pag : Page) : Option Derived := do
  let d := d.updateHighest pag.height
  let heaviestPage ← match c.heaviestBlock with
    | none => some pag
    | some heaviest => c.blocks.get heaviest
  let heaviestChain ← revise c heaviestPage.height heaviestPage.digest d.heaviestChain
  return { d with heaviestChain }

end Derived

end

variable [Tip5] [Pow]

/-- What a node is started with: the constants of the chain, the message hash of the genesis
seal, that of the main network, and the checkpoints of the latter. -/
structure Config where
  bc : BlockchainConstants
  genesisSeal : Option Digest
  realnetGenesisMsg : Digest
  checkpointedDigests : ZMap Nat Digest

/-- `height-to-proof-version`. -/
def heightToProofVersion (height : Nat) : Nat :=
  if 12000 ≤ height then 2 else if 6750 ≤ height then 1 else 0

/-- The version of the proof is that of the height. A missing proof crashes. -/
def checkProofVersion (bc : BlockchainConstants) (pag : Page) : Option Bool :=
  if !bc.checkPowFlag then some true
  else do return heightToProofVersion pag.height = Pow.version (← pag.pow)

/-- `check-epoch-counter`, in `validate-page-without-txs`. -/
def checkEpochCounter (bc : BlockchainConstants) (pag par : Page) : Bool :=
  pag.epochCounter < bc.blocksPerEpoch &&
    (pag.epochCounter = 0 && par.epochCounter = bc.blocksPerEpoch - 1 ||
      pag.epochCounter = par.epochCounter + 1)

/-- The checkpoint of a height holds on the main network only. -/
def checkCheckpoint (cfg : Config) (genesisSeal : Digest) (pag : Page) : Bool :=
  cfg.realnetGenesisMsg ≠ genesisSeal ||
    (cfg.checkpointedDigests.get pag.height).all (· = pag.digest)

namespace State

/-- `validate-page-without-txs`. -/
def validatePageWithoutTxs (cfg : Config) (c : State) (pag : Page) (nowSecs : Nat) :
    Option (Except PageTerm Unit) := do
  if !(← checkProofVersion cfg.bc pag) then return .error .proofVersionInvalid
  let par ← c.blocks.get pag.parent
  if !(← pag.checkDigest) then return .error .pageDigestInvalid2
  if !checkEpochCounter cfg.bc pag par then return .error .pageEpochInvalid
  if !(← pag.checkPowHash cfg.bc) then return .error .powTargetCheckFailed
  let minTimestamp ← c.minTimestamps.get pag.parent
  if !(minTimestamp ≤ pag.timestamp && pag.timestamp ≤ nowSecs + cfg.bc.maxFutureTimestamp) then
    return .error .pageTimestampInvalid
  if pag.target ≠ (← c.targets.get pag.parent) then return .error .pageTargetInvalid
  if pag.height ≠ par.height + 1 then return .error .pageHeightInvalid
  match cfg.genesisSeal with
  | none => return .error .genesisSealNotSet
  | some genesisSeal => do
    if !checkCheckpoint cfg genesisSeal pag then return .error .checkpointMatchFailed
    if pag.accumulatedWork ≠
        .chunk (par.accumulatedWork.merge + (Page.computeWork cfg.bc pag.target).merge) then
      return .error .pageHeavinessInvalid
    if !pag.coinbase.isBased cfg.bc then return .error .coinbaseSplitNotBased
    if 20 ≤ pag.msg.length then return .error .msgTooLarge
    if !pag.msg.all based then return .error .msgNotValid
    return .ok ()

end State

/-- `check-genesis`: crashes on a version 1 split, a missing proof or a missing seal. -/
def checkGenesis (cfg : Config) (pag : Page) (btcHash : Option Digest) : Option Bool := do
  let checkDigest ← pag.checkDigest
  let checkPowHash ← pag.checkPowHash cfg.bc
  let checkPowValid ← pag.checkPow cfg.bc
  match pag.coinbase with
  | .v1 _ => none
  | .v0 split => do
    let msgHash ← cfg.genesisSeal
    let genesisTarget := Bignum.chunk cfg.bc.genesisTargetAtom
    return checkDigest && checkPowHash && checkPowValid && based pag.timestamp &&
      pag.txIds = ∅ && pag.epochCounter = 0 && pag.target = genesisTarget &&
      pag.accumulatedWork = Page.computeWork cfg.bc genesisTarget && split = ∅ &&
      pag.height = 0 && btcHash.all (pag.parent = ·) &&
      (← hashHashable (leafOf pag.msg)) = msgHash

/-! ### Runs -/

/-- A page that the checks of `heard-block` have passed: the state has its parent but not the page
itself. -/
structure Heard (cfg : Config) (c : State) (pag : Page) : Prop where
  height : pag.height ≠ 0
  parent : c.blocks.has pag.parent = true
  fresh : (c.blocks.has pag.digest || c.pendingBlocks.has pag.digest) = false
  checked : ∃ nowSecs, c.validatePageWithoutTxs cfg pag nowSecs = some (.ok ())
  pow : pag.checkPow cfg.bc = some true

/-- A transaction that the checks of `heard-tx` have passed. -/
structure HeardTx [Cheetah] (raw : RawTx) : Prop where
  based : raw.isBased = true
  id : raw.computeId = some raw.id
  valid : raw.validate = some true

/-- One step of a node: `c'` is what an arm of `consensus.hoon` returns in `c`. A page is accepted
when it is heard or from the pending blocks, where it was heard before. -/
inductive Step [Cheetah] (cfg : Config) : State → State → Prop where
  | addRawTx {c c' : State} {raw : RawTx} {ready : List Digest} (heard : HeardTx raw)
      (h : c.addRawTx raw = some (ready, c')) : Step cfg c c'
  | addPendingBlock {c c' : State} {pag : Page} {missing : List Digest} (heard : Heard cfg c pag)
      (h : c.addPendingBlock pag = some (missing, c')) : Step cfg c c'
  | rejectPendingBlock {c c' : State} {blockId : Digest}
      (h : c.rejectPendingBlock blockId = some c') : Step cfg c c'
  | acceptGenesis {c c' : State} {pag : Page} {btcHash : Option Digest}
      (heard : checkGenesis cfg pag btcHash = some true)
      (h : c.acceptPage cfg.bc pag default = some c') : Step cfg c c'
  | acceptPage {c c' : State} {pag : Page} {acc : TxAcc}
      (heard : Heard cfg c pag ∨ ∃ heardAt, c.pendingBlocks.get pag.digest = some (pag, heardAt))
      (valid : c.validatePageWithTxs cfg.bc pag = some (.ok acc))
      (h : c.acceptPage cfg.bc pag acc = some c') : Step cfg c c'
  | updateHeaviest {c c' : State} {pag : Page} (accepted : c.blocks.get pag.digest = some pag)
      (h : c.updateHeaviest pag = some c') : Step cfg c c'
  | garbageCollect {c c' : State} {retain : Option Nat} (h : c.garbageCollect retain = some c') :
      Step cfg c c'

/-- The states that a node can reach from the empty one. -/
inductive Reachable [Cheetah] (cfg : Config) : State → Prop where
  | init : Reachable cfg default
  | step {c c' : State} (hc : Reachable cfg c) (h : Step cfg c c') : Reachable cfg c'

end Nockchain.Consensus
