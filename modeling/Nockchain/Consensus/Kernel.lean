import Nockchain.Consensus.Chain
import Nockchain.Consensus.Miner

/-!
# `Nockchain.Consensus.Kernel`: the pokes of a node

The kernel of `inner.hoon` holds the consensus state, what is derived from it
and the state of the miner. A poke brings it a block or a transaction from a
peer, or a command of the operator; it answers with effects for the network
driver and a new state. A poke that crashes, `none` here, leaves the old state
and no effects.
-/

set_option autoImplicit false

namespace Nockchain.Consensus

open Lib TxEngine

/-- `wire`: where a poke comes from. -/
inductive Wire where
  | libp2p (peerId : Nat)
  | nc
  | timer
  | sys
  | miner
  | grpc
deriving DecidableEq, Repr

/-- `get-peer-id`. -/
def Wire.getPeerId : Wire → Option Nat
  | .libp2p peerId => some peerId
  | _ => none

/-- The terms with which the kernel calls a peer or a block a liar. -/
inductive LiarTerm where
  | page (term : PageTerm)
  | notAGenesisBlock
  | pageDigestInvalid
  | failedPowCheck
  | rawTxNotBased
  | txIdInvalid
  | pagePendingRawTxInvalid
  | txInputsNotInSpentByAndInvalid
  | moreThan24ParentHashes
  | lessThan24ParentHashes
  | differingGenesis
deriving DecidableEq, Repr

variable [Tip5]

/-- `effect`. -/
inductive Effect where
  | seenBlock (blockId : Digest) (height : Option Nat)
  | seenTx (txId : Digest)
  | requestBlock (height : Nat)
  | requestElders (blockId : Digest) (peerId : Nat)
  | requestRawTx (txId : Digest)
  | trackAdd (blockId : Digest) (peerId : Nat)
  | trackRemove (blockId : Digest)
  | gossipBlock (pag : Page)
  | gossipTx (raw : RawTx)
  | liarPeer (peerId : Nat) (term : LiarTerm)
  | liarBlockId (blockId : Digest) (term : LiarTerm)
  | mine (version : Nat) (commit : Digest) (target : Bignum) (powLen : Nat)
  | spanNewHeaviestChain (height : Nat) (blockId : Digest)
  | spanSideChainOrphan (blockId : Digest) (height : Nat)
  | spanReorgOrphan (blockId : Digest) (newHeaviest : Digest) (newHeight : Nat)
  | spanChainReorg (blockId : Digest) (newHeight : Nat)
deriving DecidableEq

/-- `kernel-state`. The hash of the bitcoin block that genesis names is that of `btc-data`. -/
structure Kernel where
  c : State
  d : Derived
  m : Mining
  init : Bool
  retain : Option Nat
  btcData : Option (Option Digest)

namespace Kernel

/-- The state of a node before its first command. -/
instance : Inhabited Kernel := ⟨⟨default, default, default, true, some 20, none⟩⟩

variable [Pow]

/-! ### Effects -/

/-- `liar-effect`: crashes where the bad message comes from the node itself. -/
def liarEffect (wir : Wire) (term : LiarTerm) : Option Effect := do
  return .liarPeer (← wir.getPeerId) term

/-- `missing-parent-effects`. -/
def missingParentEffects (k : Kernel) (blockId : Digest) (height peerId : Nat) :
    Option (List Effect) :=
  match k.d.highestBlockHeight with
  | none => if k.c.heaviestBlock = none then some [.requestBlock 0] else none
  | some highest =>
    if highest + 1 < height then some [.requestBlock (highest + 1)]
    else some [.requestElders blockId peerId]

/-- `regossip-block-txs-effects`: only of a node that mines. -/
def regossipBlockTxsEffects (k : Kernel) (pag : Page) : Option (List Effect) :=
  if k.m.noKeysSet then some []
  else pag.txIds.repM (fun txId effs => do
    let (raw, _) ← k.c.rawTxs.get txId
    return .gossipTx raw :: effs) []

/-- `do-mine`. -/
def doMine (cfg : Config) (k : Kernel) : Option (List Effect) := do
  if !k.m.mining then return []
  if k.m.noKeysSet then return []
  let pag := k.m.candidateBlock
  let commit ← hashHashable pag.hashableBlockCommitment
  return [.mine (heightToProofVersion pag.height) commit pag.target cfg.bc.powLen]

/-- The effects of an accepted block, before those of the mempool and the miner: the next block is
requested, a new heaviest block gossiped, and what it orphans reported. -/
def chainEffects (pag : Page) (oldHeavy : Option Digest) (isNewHeaviest : Bool) : List Effect :=
  let effs := [.requestBlock (pag.height + 1), .seenBlock pag.digest (some pag.height)]
  let effs := if isNewHeaviest then
      .gossipBlock pag :: .spanNewHeaviestChain pag.height pag.digest :: effs
    else .spanSideChainOrphan pag.digest pag.height :: effs
  match oldHeavy with
  | none => effs
  | some old =>
    if isNewHeaviest && pag.parent ≠ old then
      .spanReorgOrphan old pag.digest pag.height :: .spanChainReorg old pag.height :: effs
    else effs

/-! ### Blocks -/

variable [Cheetah]

/-- Garbage is collected for a new heaviest block. -/
def collect (retain : Option Nat) (isNewHeaviest : Bool) (c : State) : Option State :=
  if isNewHeaviest then c.garbageCollect retain else some c

/-- For a new heaviest block, the transactions that no block needs are gossiped again. -/
def regossipExcludedTxs (isNewHeaviest : Bool) (c : State) (effs : List Effect) :
    Option (List Effect) :=
  if isNewHeaviest then
    c.excludedTxs.repM (fun txId effs => do
      let (raw, _) ← c.rawTxs.get txId
      return .gossipTx raw :: effs) effs
  else some effs

/-- `accept-block`. The version of the proof is read for the log. -/
def acceptBlock (cfg : Config) (k : Kernel) (now : Nat) (pag : Page) (acc : TxAcc) :
    Option (List Effect × Kernel) := do
  let c ← k.c.acceptPage cfg.bc pag acc
  guard (!cfg.bc.checkPowFlag || pag.pow.isSome)
  let oldHeavy := c.heaviestBlock
  let c ← c.updateHeaviest pag
  let isNewHeaviest := decide (oldHeavy ≠ c.heaviestBlock)
  let effs := chainEffects pag oldHeavy isNewHeaviest
  let c ← collect k.retain isNewHeaviest c
  let effs ← regossipExcludedTxs isNewHeaviest c effs
  let k := { k with c }
  let effs := (← k.regossipBlockTxsEffects pag) ++ effs
  let k := { k with m := ← k.m.heardNewBlock cfg.bc c now }
  let k := { k with d := ← k.d.update c pag }
  if isNewHeaviest then return ((← k.doMine cfg) ++ effs, k) else return (effs, k)

/-- `process-block-with-txs`. -/
def processBlockWithTxs (cfg : Config) (k : Kernel) (now : Nat) (pag : Page)
    (badBlockEffs : List Effect) : Option (List Effect × Kernel) := do
  match ← k.c.validatePageWithTxs cfg.bc pag with
  | .ok newTransfers => k.acceptBlock cfg now pag newTransfers
  | .error _ => do
    let c ← k.c.rejectPendingBlock pag.digest
    return (badBlockEffs, { k with c })

/-- `heard-genesis-block`. -/
def heardGenesisBlock (cfg : Config) (k : Kernel) (wir : Wire) (now : Nat) (pag : Page) :
    Option (List Effect × Kernel) := do
  if k.c.blocks.has pag.digest || k.c.pendingBlocks.has pag.digest then return ([], k)
  let btcHash ← k.btcData
  if !(← checkGenesis cfg pag btcHash) then
    return ([← liarEffect wir .notAGenesisBlock], k)
  k.acceptBlock cfg now pag default

/-- The end of `heard-block`, for a page that has passed the checks. -/
def enterBlock (cfg : Config) (k : Kernel) (now : Nat) (pag : Page) (blockEffs : List Effect) :
    Option (List Effect × Kernel) := do
  let (missingTxs, c) ← k.c.addPendingBlock pag
  let k := { k with c, d := k.d.updateHighest pag.height }
  if missingTxs ≠ [] then
    let blockEffs := blockEffs ++ missingTxs.map .requestRawTx
    let old ← c.blocks.get (← c.heaviestBlock)
    return (if pag.compareHeaviness old then .gossipBlock pag :: blockEffs else blockEffs, k)
  k.processBlockWithTxs cfg now pag blockEffs

/-- The effects with which `heard-block` starts to track a block. -/
def trackEffects (wir : Wire) (pag : Page) : List Effect :=
  match wir.getPeerId with
  | none => []
  | some peerId => [.trackAdd pag.digest peerId]

/-- `heard-block`. -/
def heardBlock (cfg : Config) (k : Kernel) (wir : Wire) (now : Nat) (pag : Page) :
    Option (List Effect × Kernel) := do
  if pag.height = 0 then k.heardGenesisBlock cfg wir now pag
  else
    match k.c.heaviestBlock with
    | none =>
      match wir.getPeerId with
      | none => return ([], k)
      | some peerId => return (← k.missingParentEffects pag.digest pag.height peerId, k)
    | some heaviest => do
      if !k.c.blocks.has pag.parent then
        if pag.compareHeaviness (← k.c.blocks.get heaviest) then
          let peerId ← wir.getPeerId
          return (← k.missingParentEffects pag.digest pag.height peerId, k)
        return ([], k)
      if k.c.blocks.has pag.digest || k.c.pendingBlocks.has pag.digest then
        return ([.seenBlock pag.digest none], k)
      if !(← pag.checkDigest) then return ([← liarEffect wir .pageDigestInvalid], k)
      let blockEffs := trackEffects wir pag
      match ← k.c.validatePageWithoutTxs cfg pag (timeInSecs now) with
      | .error term => return (blockEffs ++ [.liarBlockId pag.digest (.page term)], k)
      | .ok () => do
        if !(← pag.checkPow cfg.bc) then
          return (blockEffs ++ [.liarBlockId pag.digest .failedPowCheck], k)
        let blockEffs :=
          .seenBlock pag.digest (some pag.height) :: blockEffs ++ [.trackRemove pag.digest]
        k.enterBlock cfg now pag blockEffs

/-! ### Transactions -/

/-- `process-ready-blocks`. -/
def processReadyBlocks (cfg : Config) (k : Kernel) (now : Nat) (work : List Digest) :
    Option (List Effect × Kernel) :=
  work.foldlM (fun (effs, k) bid => do
    let (pag, _) ← k.c.pendingBlocks.get bid
    let (newEffs, k) ← k.processBlockWithTxs cfg now pag [.seenBlock bid none]
    return (newEffs ++ effs, k)) ([], k)

/-- The part of `heard-tx` for a transaction that blocks wait for. If it is not valid, all of them
are rejected. -/
def heardNeededTx (cfg : Config) (k : Kernel) (wir : Wire) (now : Nat) (raw : RawTx) :
    Option (List Effect × Kernel) := do
  if !(← raw.validate) then
    let c ← (ZJug.get k.c.blocksNeededBy raw.id).repM (fun id c => c.rejectPendingBlock id) k.c
    return ([← liarEffect wir .pagePendingRawTxInvalid], { k with c })
  let (work, c) ← k.c.addRawTx raw
  { k with c }.processReadyBlocks cfg now work

/-- The part of `heard-tx` for a transaction that no block waits for. -/
def heardFreeTx (k : Kernel) (wir : Wire) (raw : RawTx) : Option (List Effect × Kernel) := do
  if !(← k.c.inputsInHeaviestBalance raw) then return ([], k)
  if raw.inputNames.tap.any k.c.spentBy.has then return ([], k)
  if !(← raw.validate) then
    return ([← liarEffect wir .txInputsNotInSpentByAndInvalid], k)
  let (work, c) ← k.c.addRawTx raw
  guard (work = [])
  return ([.seenTx raw.id, .gossipTx raw], { k with c })

/-- `heard-tx`. -/
def heardTx (cfg : Config) (k : Kernel) (wir : Wire) (now : Nat) (raw : RawTx) :
    Option (List Effect × Kernel) := do
  if k.c.rawTxs.has raw.id then return ([.seenTx raw.id], k)
  if !raw.isBased then return ([← liarEffect wir .rawTxNotBased], k)
  if (← raw.computeId) ≠ raw.id then return ([← liarEffect wir .txIdInvalid], k)
  if k.c.blocksNeededBy.has raw.id then k.heardNeededTx cfg wir now raw
  else k.heardFreeTx wir raw

/-! ### Elders -/

/-- The loop of `heard-elders`: the height of the first known id, from the newest on. Genesis is
not looked at. The ids are a peer's, so that looking one up may crash. -/
def latestKnown (c : State) : List Digest → Nat → Option (Option Nat)
  | [], _ => some none
  | id :: ids, height =>
    if height = 0 then some none
    else do
      if ← c.blocks.hasM id then return some height
      latestKnown c ids (height - 1)

/-- `heard-elders`. -/
def heardElders (k : Kernel) (wir : Wire) (oldest : Nat) (ids : List Digest) :
    Option (List Effect) := do
  let peerId ← wir.getPeerId
  if 24 < ids.length then return [.liarPeer peerId .moreThan24ParentHashes]
  if !(oldest = 0 || ids.length = 24) then return [.liarPeer peerId .lessThan24ParentHashes]
  guard (oldest + ids.length ≠ 0)
  match ← latestKnown k.c ids (oldest + ids.length - 1) with
  | some height => return [.requestBlock (height + 1)]
  | none =>
    if oldest = 0 then
      return if k.c.heaviestBlock = none then [.requestBlock 0]
        else [.liarPeer peerId .differingGenesis]
    k.missingParentEffects (← ids.getLast?) oldest peerId

/-! ### Commands -/

/-- `do-born`: crashes where neither a block nor the hash of the bitcoin block is there. -/
def doBorn (cfg : Config) (k : Kernel) : Option (List Effect × Kernel) := do
  let k := { k with init := false }
  match k.c.heaviestBlock with
  | none => do
    let _ ← k.btcData
    return ([.requestBlock 0], k)
  | some heaviest => do
    let height := (← k.c.blocks.get heaviest).height + 1
    return ((← k.doMine cfg) ++ [.requestBlock height, .seenBlock heaviest (some height)], k)

/-- The largest number that a digest of five field elements stands for. -/
def maxTip5Atom : Nat := basePrime ^ 5 - 1

/-- `do-pow`: a proof for the candidate block, with the number that its hash stands for. -/
def doPow (cfg : Config) (k : Kernel) (now : Nat) (prf : Noun) (dig : Nat) (bc : Digest) :
    Option (List Effect × Kernel) := do
  let commit ← hashHashable k.m.candidateBlock.hashableBlockCommitment
  if bc ≠ commit then return ([], k)
  let target ← k.c.targets.get k.m.candidateBlock.parent
  guard (dig ≤ maxTip5Atom)
  if dig ≤ target.merge then
    let m ← k.m.setPow prf
    { k with m }.heardBlock cfg .miner now m.candidateBlock
  else return ([], k)

/-- `do-set-mining-key` and `do-set-mining-key-advanced`, with the keys as they are parsed. -/
def doSetMiningKeys [Curve] (cfg : Config) (k : Kernel) (v0 : List (Sig × Nat))
    (v1 : List (Digest × Nat)) : Option Kernel := do
  let m ← k.m.setV0Shares cfg.bc v0
  let m ← m.setShares v1
  return { k with m }

/-- `do-enable-mining`. -/
def doEnableMining (cfg : Config) (k : Kernel) (now : Nat) (mine : Bool) : Option Kernel := do
  if !mine then return { k with m := { k.m with mining := mine } }
  if k.m.noKeysSet then return k
  let m := { k.m with mining := mine }
  if k.c.heaviestBlock = none then return { k with m }
  return { k with m := ← m.heardNewBlock cfg.bc k.c now }

/-- `do-timer`. -/
def doTimer (k : Kernel) : Option (List Effect) := do
  if k.init then return []
  let effects := k.c.missingTxIds.map .requestRawTx
  let heavyHeight ← match k.c.heaviestBlock with
    | none => some 0
    | some heaviest => (k.c.blocks.get heaviest).map (·.height + 1)
  return (← k.regossipBlockTxsEffects k.m.candidateBlock) ++ .requestBlock heavyHeight :: effects

/-- `new-genesis:page`, on a bitcoin block. -/
def newGenesis (cfg : Config) (now : Nat) (btcHash : Digest) (msg : List Nat) : Page :=
  let genesisTarget := Bignum.chunk cfg.bc.genesisTargetAtom
  { (default : Page) with
    timestamp := timeInSecs now
    target := genesisTarget
    accumulatedWork := Page.computeWork cfg.bc genesisTarget
    coinbase := .v0 ∅
    parent := btcHash
    msg }

/-- `do-genesis`: the block to mine is a genesis block. -/
def doGenesis (cfg : Config) (k : Kernel) (now : Nat) (btcHash : Digest) (msg : List Nat) :
    Kernel :=
  { k with
    m := { k.m with candidateBlock := newGenesis cfg now btcHash msg }
    btcData := some (some btcHash) }

end Kernel

/-! ### Pokes -/

/-- `cause`: what a peer tells the node, or a command of the operator. -/
inductive Cause where
  | heardBlock (pag : Page)
  | heardTx (raw : RawTx)
  | heardElders (oldest : Nat) (ids : List Digest)
  | born
  | pow (prf : Noun) (dig : Nat) (bc : Digest)
  | setMiningKeys (v0 : List (Sig × Nat)) (v1 : List (Digest × Nat))
  | enableMining (mine : Bool)
  | timer
  | genesis (btcHash : Digest) (msg : List Nat)
  | btcData (btcHash : Option Digest)

namespace Kernel

variable [Pow] [Cheetah] [Curve]

/-- `handle-fact` and `handle-command`. Facts, a mined block and the timer are ignored while the
node is set up; what sets it up is ignored afterwards. Peers send facts only. -/
def handle (cfg : Config) (k : Kernel) (wir : Wire) (now : Nat) :
    Cause → Option (List Effect × Kernel)
  | .heardBlock pag => if k.init then some ([], k) else k.heardBlock cfg wir now pag
  | .heardTx raw => if k.init then some ([], k) else k.heardTx cfg wir now raw
  | .heardElders oldest ids =>
    if k.init then some ([], k) else (k.heardElders wir oldest ids).map (·, k)
  | .born => do
    guard (wir.getPeerId = none)
    k.doBorn cfg
  | .pow prf dig bc => do
    guard (wir.getPeerId = none)
    if k.init then return ([], k) else k.doPow cfg now prf dig bc
  | .setMiningKeys v0 v1 => do
    guard (wir.getPeerId = none)
    return ([], ← k.doSetMiningKeys cfg v0 v1)
  | .enableMining mine => do
    guard (wir.getPeerId = none)
    return ([], ← k.doEnableMining cfg now mine)
  | .timer => do
    guard (wir.getPeerId = none)
    return (← k.doTimer, k)
  | .genesis btcHash msg => do
    guard (wir.getPeerId = none)
    return ([], if k.init then k.doGenesis cfg now btcHash msg else k)
  | .btcData btcHash => do
    guard (wir.getPeerId = none)
    return ([], if k.init then { k with btcData := some btcHash } else k)

/-- `poke`: the cause is handled, and then the candidate block brought up to date. -/
def poke (cfg : Config) (k : Kernel) (wir : Wire) (now : Nat) (cause : Cause) :
    Option (List Effect × Kernel) := do
  let (effs, k) ← k.handle cfg wir now cause
  let (candidateChanged, m) ← k.m.updateCandidateBlock cfg.bc k.c now
  let k := { k with m }
  if !candidateChanged then return (effs, k)
  let pag := m.candidateBlock
  let target ← k.c.targets.get pag.parent
  let commit ← hashHashable pag.hashableBlockCommitment
  return (.mine (heightToProofVersion pag.height) commit target cfg.bc.powLen :: effs, k)

/-- The states that the kernel of a node can reach. A poke that crashes changes nothing. -/
inductive Reachable (cfg : Config) : Kernel → Prop where
  | init : Reachable cfg default
  | poke {k k' : Kernel} {wir : Wire} {now : Nat} {cause : Cause} {effs : List Effect}
      (hk : Reachable cfg k) (h : k.poke cfg wir now cause = some (effs, k')) : Reachable cfg k'

/-! ### What a node does with a saved state

`load` of `inner.hoon` compares the heaviest chain of the state that it is given
with the checkpoints of the main network, and starts afresh where it differs.
-/

/-- `is-mainnet`: not known before there is a seal or a genesis block. The hash of the message of
that block may crash. -/
def isMainnet (cfg : Config) (k : Kernel) : Option (Option Bool) :=
  match cfg.genesisSeal with
  | none =>
    match (k.d.heaviestChain.get 0).bind k.c.blocks.get with
    | none => some none
    | some genesis => do
      return some ((← hashHashable (leafOf genesis.msg)) = cfg.realnetGenesisMsg)
  | some msgHash => some (some (cfg.realnetGenesisMsg = msgHash))

/-- The loop of `check-checkpoints`. The init flag of the old state is put in the kernel's own
state, which is dropped, and not in the new one. -/
def checkFrom (k : Kernel) : List (Nat × Digest) → Kernel
  | [] => k
  | (height, id) :: checkpoints =>
    match k.d.heaviestChain.get height with
    | none => k.checkFrom checkpoints
    | some blockId =>
      if blockId ≠ id then
        let nk : Kernel := default
        { nk with m := { nk.m with
            mining := k.m.mining, shares := k.m.shares, v0Shares := k.m.v0Shares } }
      else k

/-- `check-checkpoints`. -/
def checkCheckpoints (cfg : Config) (k : Kernel) : Option Kernel := do
  let mainnet ← k.isMainnet cfg
  if mainnet = some true then return k.checkFrom cfg.checkpointedDigests.tap else return k

end Kernel

end Nockchain.Consensus

/-!
## The balance, tip and elders queries

A wallet reads a node through peeks of `inner.hoon`. The two balance peeks give the
notes of an owner in the heaviest block, with the block and a height; the
`heaviest-chain` peek gives the tip. All three read the height from the derived state.
A peer that catches up asks for the `elders` of a block, which are read from the
heaviest chain. An answer `[~ ~]` is `none` here.
-/

namespace Nockchain.Consensus.Kernel

open Lib TxEngine

variable [Tip5]

/-- The balance of the heaviest block, cut down to the entries that pass a test. -/
def balancePeek (k : Kernel) (test : Nnote → Bool) : Option (Nat × Digest × Balance) := do
  let heaviest ← k.c.heaviestBlock
  guard (k.c.blocks.has heaviest)
  let bal ← k.c.balance.get heaviest
  let highest ← k.d.highestBlockHeight
  return (highest, heaviest,
    bal.rep (fun x (kept : Balance) => if test x.2 then kept.put x.1 x.2 else kept) ∅)

/-- The peek `balance-by-first-name`. -/
def balanceByFirstName (k : Kernel) (firstName : Digest) : Option (Nat × Digest × Balance) :=
  k.balancePeek fun note => note.firstName = firstName

/-- The test of `balance-by-pubkey`: the key can spend the note on its own. Only version 0 notes
name keys. -/
def spendableBy (pubkey : SchnorrPubkey) : Nnote → Bool
  | .v0 note => note.sig.pubkeys.has pubkey && (note.sig.m == 1 || note.sig.pubkeys.wyt == 1)
  | .v1 _ => false

/-- The peek `balance-by-pubkey`. -/
def balanceByPubkey (k : Kernel) (pubkey : SchnorrPubkey) : Option (Nat × Digest × Balance) :=
  k.balancePeek (spendableBy pubkey)

/-- The peek `heaviest-chain`. -/
def heaviestChainPeek (k : Kernel) : Option (Nat × Digest) := do
  let highest ← k.d.highestBlockHeight
  let blockId ← k.d.heaviestChain.get highest
  return (highest, blockId)

/-- The loop of `get-elders`, from a height downwards: it ends at genesis, or with 24 ids. The ids
found so far are in the order of their heights. -/
def eldersFrom (d : Derived) : Nat → List Digest → Nat → Option (Nat × List Digest)
  | 0, ids, _ => some (0, ids.reverse)
  | prevHeight + 1, ids, count =>
    if count = 24 then some (prevHeight + 1, ids.reverse)
    else do
      let prevId ← d.heaviestChain.get prevHeight
      eldersFrom d prevHeight (prevId :: ids) (count + 1)

/-- The height at which `get-elders` starts: that of the block, or that of the tip if it is less. -/
def eldersHeight (k : Kernel) (block : Page) : Option Nat :=
  match k.c.heaviestBlock with
  | none => some 0
  | some heaviest => (k.c.blocks.get heaviest).map fun pag => min pag.height block.height

/-- `get-elders`: the oldest height and the ids, the newest first. They are those of the heaviest
chain, whether the block is on it or not. -/
def getElders (k : Kernel) (bid : Digest) : Option (Nat × List Digest) := do
  let block ← k.c.blocks.get bid
  let height ← k.eldersHeight block
  let bidAtHeight ← k.d.heaviestChain.get height
  eldersFrom k.d height [bidAtHeight] 1

end Nockchain.Consensus.Kernel
