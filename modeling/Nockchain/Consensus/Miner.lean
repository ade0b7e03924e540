import Nockchain.Consensus.State

/-!
# `Nockchain.Consensus.Miner`: the candidate block

`miner.hoon` keeps the block that the node tries to mine. A new heaviest block
replaces it by an empty one on top of that block, and the transactions of the
mempool are then added one by one, each where the accumulator takes it and the
block stays below the size limit. Its coinbase splits the emission and the fees
among the shares that the operator has set.
-/

set_option autoImplicit false

namespace Nockchain.Consensus

open Lib TxEngine

/-! ### Splitting a reward -/

section Split

variable {κ : Type}

/-- The coins that are left go to the first share. There has to be one. -/
def giveFirst (remainingCoins : Nat) : List (κ × Nat) → Option (List (κ × Nat))
  | [] => none
  | (first, coins) :: rest => some ((first, coins + remainingCoins) :: rest)

/-- The loop of `new:coinbase-split`, with the number of rounds that are left: each share gets its
part of the remaining coins, rounded down. -/
def distribute (totalShares : Nat) :
    Nat → Nat → List (κ × Nat × Nat) → Option (List (κ × Nat))
  | 0, remainingCoins, split =>
    let finalSplit := split.map fun (h, _, coins) => (h, coins)
    if remainingCoins = 0 then some finalSplit else giveFirst remainingCoins finalSplit
  | rounds + 1, remainingCoins, split =>
    if remainingCoins = 0 then some (split.map fun (h, _, coins) => (h, coins))
    else do
      guard (totalShares ≠ 0)
      let this := fun share => share * remainingCoins / totalShares
      let newSplit := split.map fun (h, share, coins) => (h, share, coins + this share)
      let distributed := (split.map fun (_, share, _) => this share).sum
      if distributed = 0 then
        giveFirst remainingCoins (newSplit.map fun (h, _, coins) => (h, coins))
      else do
        guard (distributed ≤ remainingCoins)
        distribute totalShares rounds (remainingCoins - distributed) newSplit

variable [Tip5] [ToNoun κ] [DecidableEq κ]

/-- `new:coinbase-split`, which is the same for both versions. -/
def newSplit (assets : Nat) (shares : ZMap κ Nat) : Option (ZMap κ Nat) :=
  match shares.key.tap with
  | [h] => some (ZMap.put ∅ h assets)
  | _ => do
    let split := shares.tap.map fun (h, share) => (h, share, 0)
    let totalShares := (shares.tap.map Prod.snd).sum
    return .gas ∅ (← distribute totalShares 3 assets split)

end Split

/-! ### The mining state -/

variable [Tip5]

/-- `time-in-secs:page`: a date counts fractions of a second. -/
def timeInSecs (now : Nat) : Nat := now / 2 ^ 64

/-- `*page`. -/
instance : Inhabited Page :=
  ⟨⟨default, none, default, ∅, .v1 ∅, 0, 0, default, default, 0, []⟩⟩

/-- `mining-state`. -/
structure Mining where
  mining : Bool
  shares : ZMap Digest Nat
  v0Shares : ZMap Sig Nat
  candidateBlock : Page
  candidateAcc : TxAcc

/-- `*mining-state`, in which the switch is on. -/
instance : Inhabited Mining := ⟨⟨true, ∅, ∅, default, default⟩⟩

/-- What the miner needs to know of the curve. -/
class Curve where
  /-- `validate:schnorr-pubkey`: the point is in the group. -/
  inG : SchnorrPubkey → Bool

/-- `spendable:sig`. -/
def spendable [Curve] (sig : Sig) : Bool :=
  sig.pubkeys.tap.all Curve.inG && sig.m ≤ 255 && sig.m ≠ 0 && sig.pubkeys.wyt ≤ 255 &&
    sig.pubkeys.wyt ≠ 0 && sig.m ≤ sig.pubkeys.wyt

/-- `validate:shares`, version 0. -/
def validateV0Shares [Curve] (bc : BlockchainConstants) (shares : ZMap Sig Nat) : Bool :=
  shares.wyt ≤ bc.maxCoinbaseSplit && shares.tap.all fun (sig, s) => s ≠ 0 && spendable sig

/-- `validate:shares`, version 1, which reads the bound of the main network. -/
def validateShares (shares : ZMap Digest Nat) : Bool :=
  shares.wyt ≤ 2 && shares.tap.all fun (_, s) => s ≠ 0

namespace Mining

/-- `set-v0-shares`. -/
def setV0Shares [Curve] (bc : BlockchainConstants) (m : Mining) (shr : List (Sig × Nat)) :
    Option Mining := do
  let s := ZMap.gas ∅ shr
  guard (validateV0Shares bc s)
  return { m with v0Shares := s }

/-- `set-shares`. -/
def setShares (m : Mining) (shr : List (Digest × Nat)) : Option Mining := do
  let s := ZMap.gas ∅ shr
  guard (validateShares s)
  return { m with shares := s }

/-- `no-keys-set`. -/
def noKeysSet (m : Mining) : Bool := m.v0Shares = ∅ || m.shares = ∅

/-- `set-pow` and `set-digest`. -/
def setPow [Pow] (m : Mining) (prf : Noun) : Option Mining := do
  let pag := { m.candidateBlock with pow := some prf }
  return { m with candidateBlock := { pag with digest := ← pag.computeDigest } }

/-! ### The candidate block -/

/-- The page that `new-candidate` builds on a parent, but for its coinbase. -/
def emptyPage (bc : BlockchainConstants) (par : Page) (nowSecs : Nat) (target : Bignum)
    (coinbase : CoinbaseSplit) : Page where
  digest := default
  pow := none
  parent := par.digest
  txIds := ∅
  coinbase
  timestamp := nowSecs
  epochCounter := if par.epochCounter + 1 = bc.blocksPerEpoch then 0 else par.epochCounter + 1
  target
  accumulatedWork := .chunk ((Page.computeWork bc target).merge + par.accumulatedWork.merge)
  height := par.height + 1
  msg := []

/-- `new-candidate:page`, version 0. -/
def newCandidateV0 (bc : BlockchainConstants) (par : Page) (nowSecs : Nat) (target : Bignum)
    (shares : ZMap Sig Nat) : Option Page := do
  let split ← newSplit (← emissionCalc (par.height + 1)) shares
  return emptyPage bc par nowSecs target (.v0 split)

/-- `new-candidate:page`, version 1, which reads the constants of the main network. -/
def newCandidate (par : Page) (nowSecs : Nat) (target : Bignum) (shares : ZMap Digest Nat) :
    Option Page := do
  let split ← newSplit (← emissionCalc (par.height + 1)) shares
  return emptyPage {} par nowSecs target (.v1 split)

/-- `raw-tx`, of a transaction. -/
def rawTxOf : Tx → RawTx
  | .v0 rawTx _ _ => .v0 rawTx
  | .v1 tx => .v1 tx.rawTx

/-- `txs-size-by-set:tx-acc`. -/
def txsSizeBySet (acc : TxAcc) : Option Nat :=
  acc.txs.repM (fun (_, tx) sum => do return sum + (← (rawTxOf tx).size)) 0

/-- `candidate-block-below-max-size`. -/
def candidateBlockBelowMaxSize (bc : BlockchainConstants) (m : Mining) : Option Bool := do
  return (← m.candidateBlock.computeSizeWithoutTxs) + (← txsSizeBySet m.candidateAcc)
    ≤ bc.maxBlockSize

/-- `pending-block-tx-ids`, in `candidate-txs`: what the mempool has of the pending blocks. -/
def pendingBlockTxIds (c : State) : ZSet Digest :=
  c.pendingBlocks.rep (fun (_, pag, _) (all : ZSet Digest) =>
    pag.txIds.rep (fun txId all => if c.rawTxs.has txId then all.put txId else all) all) ∅

/-- `candidate-txs`. -/
def candidateTxs (m : Mining) (c : State) : Option (ZSet RawTx) :=
  let candidateTxIds := (c.excludedTxs.uni (pendingBlockTxIds c)).dif m.candidateBlock.txIds
  candidateTxIds.repM (fun txId txs => do
    let (raw, _) ← c.rawTxs.get txId
    return txs.put raw) ∅

/-- The coinbase of the candidate block with other assets, of the version that it has. -/
def resplit (m : Mining) (newAssets : Nat) : Option CoinbaseSplit :=
  match m.candidateBlock.coinbase with
  | .v0 _ => (newSplit newAssets m.v0Shares).map .v0
  | .v1 _ => (newSplit newAssets m.shares).map .v1

/-- `heard-new-tx`: the candidate block with a transaction, where the accumulator takes it and the
block is not too large. More fees are split anew. -/
def heardNewTx [Cheetah] (bc : BlockchainConstants) (m : Mining) (raw : RawTx) :
    Option Mining := do
  if m.noKeysSet then return m
  if m.candidateBlock.txIds.has raw.id then return m
  let acc := { m.candidateAcc with height := m.candidateBlock.height }
  match acc.process bc raw with
  | .error _ => return { m with candidateAcc := acc }
  | .ok newAcc => do
    let old := { m with candidateAcc := acc }
    let new := { m with
      candidateBlock := { m.candidateBlock with txIds := m.candidateBlock.txIds.put raw.id }
      candidateAcc := newAcc }
    if newAcc.fees = acc.fees then
      return if ← new.candidateBlockBelowMaxSize bc then new else old
    guard (acc.fees < newAcc.fees)
    let oldAssets := m.candidateBlock.coinbase.coins.sum
    let coinbase ← m.resplit (oldAssets + (newAcc.fees - acc.fees))
    let new := { new with candidateBlock := { new.candidateBlock with coinbase } }
    return if ← new.candidateBlockBelowMaxSize bc then new else old

/-- `add-txs-to-candidate`. -/
def addTxsToCandidate [Cheetah] (bc : BlockchainConstants) (m : Mining) (c : State) :
    Option Mining := do
  if m.noKeysSet then return m
  (← m.candidateTxs c).repM (fun raw m => m.heardNewTx bc raw) m

/-- `update-candidate-block`: whether the candidate block has changed, and the new one. -/
def updateCandidateBlock [Cheetah] (bc : BlockchainConstants) (m : Mining) (c : State)
    (now : Nat) : Option (Bool × Mining) := do
  if m.candidateBlock = default || m.noKeysSet then return (false, m)
  guard (bc.updateCandidateInterval ≤ now)
  if timeInSecs (now - bc.updateCandidateInterval) ≤ m.candidateBlock.timestamp then
    return (false, m)
  let m := { m with candidateBlock := { m.candidateBlock with timestamp := timeInSecs now } }
  return (true, ← m.addTxsToCandidate bc c)

/-- `heard-new-block`: a candidate block on top of the heaviest one. Its version is that of its
height, except that the child of a version 1 block is always of version 1. -/
def heardNewBlock [Cheetah] (bc : BlockchainConstants) (m : Mining) (c : State) (now : Nat) :
    Option Mining :=
  match c.heaviestBlock with
  | none => some m
  | some heaviest => do
    if heaviest = m.candidateBlock.parent then return m
    if m.noKeysSet then return m
    let parent ← c.blocks.get heaviest
    let target ← c.targets.get heaviest
    let candidateBlock ← match parent.coinbase with
      | .v0 _ =>
        if parent.height + 1 < bc.v1Phase then
          newCandidateV0 bc parent (timeInSecs now) target m.v0Shares
        else newCandidate parent (timeInSecs now) target m.shares
      | .v1 _ => newCandidate parent (timeInSecs now) target m.shares
    let candidateAcc := TxAcc.new (c.balance.get heaviest) candidateBlock.height
    { m with candidateBlock, candidateAcc }.addTxsToCandidate bc c

end Mining

end Nockchain.Consensus
