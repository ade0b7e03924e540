import Nockchain.Proofs.Consensus.Kernel
import Nockchain.Proofs.Consensus.Order
import Nockchain.Proofs.Consensus.Refused
import Nockchain.Proofs.Consensus.Split

/-!
# `Nockchain.Proofs.Consensus.Candidate`: when a candidate block is a valid block

The miner builds a block on the heaviest one while the consensus state changes
under it. `Mineable` is what such a block is for: with a digest and a proof it
passes `validate-page-without-txs`, and `validate-page-with-txs` accepts it with
the balance and the fees that the miner has in its accumulator.

This does not hold of every run. A share that is too small for the reward makes
a part of zero coins, which `based:coinbase-split` refuses
(`not_mineable_smallShare`). The other ways to fail are in `Act.Fair`, which says
for each act of the miner what it has to find: the clock is not behind the
parent's, the constants that `new-candidate` reads are those of the chain, the
shares cover the emission, no transaction at hand spends a note of another, and
where the miner does not measure its block the block is not too large. Along the
moves that meet it every candidate block is mineable (`mineable_of_moves`), and
the pokes of a kernel are such moves (`Kernel.Reachable.moves`).
-/

set_option autoImplicit false

namespace Nockchain.Consensus

open Lib TxEngine State ZSet Option Mining
open Relation (ReflTransGen)

section Candidate

variable [Tip5] [Pow] [Cheetah] {cfg : Config} {c c' : State} {m m' : Mining}

/-! ### What a candidate block is for -/

/-- The checks of `validate-page-without-txs` that are about the digest and the proof of a page. A
checkpoint is a check of the digest. -/
structure ProofChecked (cfg : Config) (pag : Page) : Prop where
  version : checkProofVersion cfg.bc pag = some true
  digest : pag.checkDigest = some true
  powHash : pag.checkPowHash cfg.bc = some true
  checkpoint : ∀ genesisSeal, cfg.genesisSeal = some genesisSeal →
    checkCheckpoint cfg genesisSeal pag = true

/-- The candidate block passes every other check, at every time that is not too far before its
timestamp, and its transactions lead to the accumulator of the miner. -/
structure Mineable (cfg : Config) (c : State) (m : Mining) : Prop where
  withoutTxs : ∀ (pow : Option Noun) (digest : Digest) (nowSecs : Nat),
    m.candidateBlock.timestamp ≤ nowSecs + cfg.bc.maxFutureTimestamp →
    ProofChecked cfg { m.candidateBlock with pow, digest } →
    c.validatePageWithoutTxs cfg { m.candidateBlock with pow, digest } nowSecs = some (.ok ())
  withTxs : ∃ acc, c.validatePageWithTxs cfg.bc m.candidateBlock = some (.ok acc) ∧
    acc.balance = m.candidateAcc.balance ∧ acc.fees = m.candidateAcc.fees

/-! ### What the miner has to find -/

/-- The candidate block with its transactions is not too large. -/
def Fits (bc : BlockchainConstants) (m : Mining) : Prop :=
  m.candidateBlockBelowMaxSize bc = some true

/-- The transactions that the miner may add to its block. -/
def atHand (c : State) : ZSet Digest := c.excludedTxs.uni (pendingBlockTxIds c)

/-- The empty candidate block on a block, in `heard-new-block`. -/
def candidateOn (bc : BlockchainConstants) (m : Mining) (c : State) (heaviest : Digest)
    (now : Nat) : Option Page := do
  let parent ← c.blocks.get heaviest
  let target ← c.targets.get heaviest
  match parent.coinbase with
  | .v0 _ =>
    if parent.height + 1 < bc.v1Phase then
      newCandidateV0 bc parent (timeInSecs now) target m.v0Shares
    else newCandidate parent (timeInSecs now) target m.shares
  | .v1 _ => newCandidate parent (timeInSecs now) target m.shares

/-- The state of the miner with an empty candidate block. -/
def Mining.startOn (m : Mining) (c : State) (heaviest : Digest) (pag : Page) : Mining :=
  { m with
    candidateBlock := pag
    candidateAcc := TxAcc.new (c.balance.get heaviest) pag.height }

/-- The shares that the operator has set are worth a coin each at a height. -/
structure Rewards (m : Mining) (height : Nat) : Prop where
  v0 : ∀ emission, emissionCalc height = some emission → Covers m.v0Shares emission
  v1 : ∀ emission, emissionCalc height = some emission → Covers m.shares emission

/-- What a new candidate block has to find. -/
structure FairStart (cfg : Config) (c : State) (m : Mining) (now : Nat) (heaviest : Digest)
    (pag : Page) : Prop where
  clock : ∃ minTimestamp, c.minTimestamps.get heaviest = some minTimestamp ∧
    minTimestamp ≤ timeInSecs now
  epoch : cfg.bc.blocksPerEpoch ≠ 0
  -- version 1 reads the constants of the main network
  constants : ∀ split, pag.coinbase = .v1 split →
    cfg.bc.blocksPerEpoch = ({} : BlockchainConstants).blocksPerEpoch ∧
      cfg.bc.maxTargetAtom = ({} : BlockchainConstants).maxTargetAtom
  rewards : Rewards m pag.height
  supply : ∀ emission, emissionCalc pag.height = some emission →
    emission + Balance.total (c.balanceOf heaviest) < basePrime
  unchained : c.Unchained { pag with txIds := atHand c }
  fits : Fits cfg.bc (m.startOn c heaviest pag)

/-- The transactions at hand do not spend notes of each other, nor of those in the candidate
block. -/
def Disentangled (c : State) (m : Mining) : Prop :=
  c.Unchained { m.candidateBlock with txIds := m.candidateBlock.txIds.uni (atHand c) }

/-- What an act of the miner has to find. Nothing is asked for the genesis block. -/
def Kernel.Act.Fair (cfg : Config) (c : State) (m : Mining) : Kernel.Act → Prop
  | .setKeys v0 v1 =>
    (v0 ≠ [] ∧ v1 ≠ []) ∧ (∀ x ∈ v0, x.1.isBased = true) ∧ (∀ x ∈ v1, x.1.isBased = true) ∧
      (m.candidateBlock.height ≠ 0 →
        Rewards { m with v0Shares := .gas ∅ v0, shares := .gas ∅ v1 } m.candidateBlock.height)
  | .enable _ => True
  | .genesis _ _ _ => True
  | .setPow prf => ∀ m', m.setPow prf = some m' → m.candidateBlock.height ≠ 0 → Fits cfg.bc m'
  | .heardNewBlock now => ∀ heaviest pag, c.heaviestBlock = some heaviest →
      heaviest ≠ m.candidateBlock.parent → candidateOn cfg.bc m c heaviest now = some pag →
      FairStart cfg c m now heaviest pag
  | .updateCandidateBlock now => m.candidateBlock.height ≠ 0 →
      m.candidateBlock.timestamp < timeInSecs (now - cfg.bc.updateCandidateInterval) →
      Fits cfg.bc
        { m with candidateBlock := { m.candidateBlock with timestamp := timeInSecs now } } ∧
      Disentangled c m
  | .addTxsToCandidate => m.candidateBlock.height ≠ 0 → Disentangled c m

/-! ### What a candidate block is -/

/-- The shares that have passed the checks of `set-v0-shares` and `set-shares`. -/
structure Keys [Curve] (cfg : Config) (m : Mining) : Prop where
  v0 : validateV0Shares cfg.bc m.v0Shares = true
  v1 : validateShares m.shares = true
  basedV0 : ∀ x ∈ m.v0Shares.tap, x.1.isBased = true
  basedV1 : ∀ x ∈ m.shares.tap, x.1.isBased = true

/-- What `validate-page-without-txs` checks of a page and its parent, apart from the coinbase, the
digest, the proof and the clock of the validator. -/
structure Header (cfg : Config) (c : State) (pag par : Page) : Prop where
  parent : c.blocks.get pag.parent = some par
  epoch : checkEpochCounter cfg.bc pag par = true
  timestamp : ∃ minTimestamp, c.minTimestamps.get pag.parent = some minTimestamp ∧
    minTimestamp ≤ pag.timestamp
  target : c.targets.get pag.parent = some pag.target
  height : pag.height = par.height + 1
  genesisSeal : cfg.genesisSeal.isSome
  heaviness : pag.accumulatedWork =
    .chunk (par.accumulatedWork.merge + (Page.computeWork cfg.bc pag.target).merge)
  msg : pag.msg = []

/-- A candidate block on the heaviest block, to which transactions may be added. -/
structure Building (cfg : Config) (c : State) (m : Mining) : Prop where
  keys : m.noKeysSet = false
  heaviest : c.heaviestBlock = some m.candidateBlock.parent
  header : ∃ par, Header cfg c m.candidateBlock par
  rewards : Rewards m m.candidateBlock.height
  coinbase : m.candidateBlock.coinbase.isBased cfg.bc = true
  coins : ∃ emission, emissionCalc m.candidateBlock.height = some emission ∧
    m.candidateBlock.coinbase.coins.sum = emission + m.candidateAcc.fees ∧
    emission + Balance.total (c.balanceOf m.candidateBlock.parent) < basePrime
  replays : ∃ raws, Replays cfg.bc c m.candidateBlock raws m.candidateAcc
  fits : Fits cfg.bc m

section

omit [TxEngine.Pow] [Cheetah]

variable {bc : BlockchainConstants} {raw : RawTx} {pag : Page}

/-- The header of a page says nothing of its digest, its proof, its transactions and its coinbase,
and it stays right when the timestamp grows. -/
theorem Header.update {par : Page} (h : Header cfg c pag par) (digest : Digest)
    (pow : Option Noun) (txIds : ZSet Digest) (coinbase : CoinbaseSplit) {timestamp : Nat}
    (hle : pag.timestamp ≤ timestamp) :
    Header cfg c { pag with digest, pow, txIds, coinbase, timestamp } par := by
  obtain ⟨minTimestamp, hmin, hmin'⟩ := h.timestamp
  exact { h with timestamp := ⟨minTimestamp, hmin, hmin'.trans hle⟩ }

/-- The transactions that the miner tries to add are at hand, under their ids. -/
theorem mem_candidateTxs (hbooks : c.Bookkeeping) {txs : ZSet RawTx}
    (h : m.candidateTxs c = some txs) (hraw : raw ∈ txs) :
    c.getRawTx raw.id = some raw ∧ raw.id ∈ atHand c := by
  refine (run_of_repM h).invariant
    (fun txs : ZSet RawTx => ∀ raw ∈ txs, c.getRawTx raw.id = some raw ∧ raw.id ∈ atHand c) ?_
    (fun raw hraw => absurd hraw (not_mem_empty raw)) raw hraw
  intro txs txId txs' htx hstep ih raw hraw
  obtain ⟨⟨found, heardAt⟩, hget, hput⟩ := bind_eq_some.1 hstep
  cases hput
  rcases mem_put.1 hraw with rfl | hold
  · have hid := hbooks.id txId raw heardAt hget
    rw [hid]
    refine ⟨by rw [getRawTx, hget]; rfl, ?_⟩
    exact (mem_dif.1 (mem_preorder.1 htx)).1
  · exact ih raw hold

/-- Fewer transactions spend no more notes of each other. -/
theorem unchained_of_subset {pag' : Page} (h : c.Unchained pag)
    (hheight : pag'.height = pag.height) (hsub : ∀ txId ∈ pag'.txIds, txId ∈ pag.txIds) :
    c.Unchained pag' := by
  have hmem : ∀ raw ∈ c.pageTxs pag', raw ∈ c.pageTxs pag := by
    intro raw hraw
    rw [pageTxs, List.reduceOption_mem_iff, mem_tap, mem_run] at hraw ⊢
    obtain ⟨txId, htx, hget⟩ := hraw
    exact ⟨txId, hsub txId htx, hget⟩
  intro raw hraw raw' hraw' notes hnotes
  rw [hheight] at hnotes
  exact h raw (hmem raw hraw) raw' (hmem raw' hraw') notes hnotes

/-- What a candidate block reads of its parent. -/
structure SameParent (c c' : State) (x : Digest) : Prop where
  blocks : c'.blocks.get x = c.blocks.get x
  minTimestamps : c'.minTimestamps.get x = c.minTimestamps.get x
  targets : c'.targets.get x = c.targets.get x
  balance : c'.balanceOf x = c.balanceOf x

theorem SameParent.of_chain (h : c'.chain = c.chain) (x : Digest) : SameParent c c' x where
  blocks := by rw [show c'.blocks = c.blocks from congrArg State.Chain.blocks h]
  minTimestamps := by
    rw [show c'.minTimestamps = c.minTimestamps from congrArg State.Chain.minTimestamps h]
  targets := by rw [show c'.targets = c.targets from congrArg State.Chain.targets h]
  balance := by
    rw [balanceOf, balanceOf,
      show c'.balance = c.balance from congrArg State.Chain.balance h]

theorem SameParent.of_accepted {acc : TxAcc}
    (h : State.AcceptedPage bc c pag acc c') {x : Digest} {page : Page}
    (hx : c.blocks.get x = some page) : SameParent c c' x := by
  have hne : x ≠ pag.digest := by
    rintro rfl
    rw [h.fresh] at hx
    cases hx
  obtain ⟨_, minTimestamp, -, -, htimes⟩ := updateMinTimestamps_eq_some h.minTimestamps
  obtain ⟨target, -, htargets⟩ := h.targets
  obtain ⟨notes, -, hbalance⟩ := h.balance
  exact {
    blocks := by rw [h.blocks, ZMap.get_put, if_neg hne]
    minTimestamps := by rw [htimes, ZMap.get_put, if_neg hne]
    targets := by rw [htargets, ZMap.get_put, if_neg hne]
    balance := by rw [balanceOf, hbalance, enterBalance_get_ne hne] }

/-- The keys of a list of shares, each of which passes a test. -/
theorem forall_tap_gas {κ : Type} [ToNoun κ] [DecidableEq κ] {l : List (κ × Nat)} {p : κ → Bool}
    (h : ∀ x ∈ l, p x.1) : ∀ x ∈ (ZMap.gas ∅ l).tap, p x.1 := by
  intro x hx
  have hhas : (ZMap.gas ∅ l).has x.1 := ZMap.has_eq_true.2 ⟨x.2, ZMap.mem_tap.1 hx⟩
  rcases ZMap.has_gas.1 hhas with hempty | hmem
  · cases hempty
  · obtain ⟨y, hy, heq⟩ := List.mem_map.1 hmem
    exact heq ▸ h y hy

theorem gas_ne_empty {κ : Type} [ToNoun κ] [DecidableEq κ] {l : List (κ × Nat)} (h : l ≠ []) :
    ZMap.gas ∅ l ≠ (∅ : ZMap κ Nat) := by
  intro hempty
  obtain ⟨x, l, rfl⟩ := List.exists_cons_of_ne_nil h
  have hhas : (ZMap.gas ∅ (x :: l)).has x.1 :=
    ZMap.has_gas.2 (.inr List.mem_cons_self)
  rw [hempty] at hhas
  cases hhas

/-! ### The coinbase -/

variable [Curve]

/-- A split of the reward among the shares of version 0 is fit for a page. -/
theorem Keys.isBased_v0 (h : Keys cfg m) {assets : Nat} {split : ZMap Sig Nat}
    (hsplit : newSplit assets m.v0Shares = some split) (hcovers : Covers m.v0Shares assets)
    (hbased : assets < basePrime) : (CoinbaseSplit.v0 split).isBased cfg.bc := by
  have hvalid := h.v0
  simp only [validateV0Shares, Bool.and_eq_true, decide_eq_true_eq, List.all_eq_true] at hvalid
  simp only [CoinbaseSplit.isBased, Bool.and_eq_true, decide_eq_true_eq, List.all_eq_true]
  exact ⟨(newSplit_wyt hsplit).trans_le hvalid.1, fun x hx =>
    newSplit_based hsplit (fun x hx => (hvalid.2 x hx).1) hcovers h.basedV0 hbased hx⟩

theorem Keys.isBased_v1 (h : Keys cfg m) {assets : Nat} {split : ZMap Digest Nat}
    (hsplit : newSplit assets m.shares = some split) (hcovers : Covers m.shares assets)
    (hbased : assets < basePrime) : (CoinbaseSplit.v1 split).isBased cfg.bc := by
  have hvalid := h.v1
  simp only [validateShares, Bool.and_eq_true, decide_eq_true_eq, List.all_eq_true] at hvalid
  simp only [CoinbaseSplit.isBased, Bool.and_eq_true, decide_eq_true_eq, List.all_eq_true]
  exact ⟨(newSplit_wyt hsplit).trans_le hvalid.1, fun x hx =>
    newSplit_based hsplit hvalid.2 hcovers h.basedV1 hbased hx⟩

/-- A coinbase that is split anew, among shares that cover the emission. -/
theorem Keys.resplit (h : Keys cfg m) {height emission assets : Nat} {coinbase : CoinbaseSplit}
    (hsplit : m.resplit assets = some coinbase) (hrewards : Rewards m height)
    (hemission : emissionCalc height = some emission) (hle : emission ≤ assets)
    (hbased : assets < basePrime) : coinbase.isBased cfg.bc ∧ coinbase.coins.sum = assets := by
  unfold Mining.resplit at hsplit
  split at hsplit
  · obtain ⟨split, hnew, rfl⟩ := map_eq_some_iff.1 hsplit
    have hcovers := (hrewards.v0 emission hemission).mono hle
    exact ⟨h.isBased_v0 hnew hcovers hbased, newSplit_sum hnew⟩
  · obtain ⟨split, hnew, rfl⟩ := map_eq_some_iff.1 hsplit
    have hcovers := (hrewards.v1 emission hemission).mono hle
    exact ⟨h.isBased_v1 hnew hcovers hbased, newSplit_sum hnew⟩

end

/-! ### Adding transactions -/

/-- The accumulator of the miner as `heard-new-tx` uses it. -/
def Mining.accAt (m : Mining) : TxAcc := { m.candidateAcc with height := m.candidateBlock.height }

variable {bc : BlockchainConstants}

variable {raw : RawTx}

omit [TxEngine.Pow] in
/-- `heard-new-tx` leaves the candidate block, or adds a transaction that the accumulator takes; the
block is measured then. -/
theorem heardNewTx_cases (h : m.heardNewTx bc raw = some m') :
    m' = m ∨ m' = { m with candidateAcc := m.accAt } ∨
      raw.id ∉ m.candidateBlock.txIds ∧ Fits bc m' ∧ ∃ newAcc coinbase,
        m.accAt.process bc raw = .ok newAcc ∧
        m' = { m with
          candidateBlock := { m.candidateBlock with
            txIds := m.candidateBlock.txIds.put raw.id, coinbase }
          candidateAcc := newAcc } ∧
        (newAcc.fees = m.accAt.fees ∧ coinbase = m.candidateBlock.coinbase ∨
          m.accAt.fees < newAcc.fees ∧
          m.resplit (m.candidateBlock.coinbase.coins.sum + (newAcc.fees - m.accAt.fees))
            = some coinbase) := by
  unfold heardNewTx at h
  split at h
  · exact .inl (some.inj h).symm
  split at h
  · exact .inl (some.inj h).symm
  rename_i hfresh
  rw [has_eq_true] at hfresh
  dsimp only at h
  split at h
  · exact .inr (.inl (some.inj h).symm)
  rename_i newAcc hprocess
  split_ifs at h with hfees
  · obtain ⟨below, hbelow, h⟩ := bind_eq_some.1 h
    cases below with
    | false => exact .inr (.inl (some.inj h).symm)
    | true =>
      cases h
      exact .inr (.inr ⟨hfresh, hbelow, newAcc, m.candidateBlock.coinbase, hprocess, rfl,
        .inl ⟨hfees, rfl⟩⟩)
  obtain ⟨_, hless, h⟩ := bind_eq_some.1 h
  rw [guard_eq_some'] at hless
  obtain ⟨coinbase, hcoinbase, h⟩ := bind_eq_some.1 h
  obtain ⟨below, hbelow, h⟩ := bind_eq_some.1 h
  cases below with
  | false => exact .inr (.inl (some.inj h).symm)
  | true =>
    cases h
    exact .inr (.inr ⟨hfresh, hbelow, newAcc, coinbase, hprocess, rfl,
      .inr ⟨hless, hcoinbase⟩⟩)

/-- The shares and the height of the candidate block are as they were. -/
structure SameShares (m m' : Mining) : Prop where
  v0Shares : m'.v0Shares = m.v0Shares
  shares : m'.shares = m.shares
  height : m'.candidateBlock.height = m.candidateBlock.height

omit [TxEngine.Pow] in
theorem SameShares.heardNewTx (h : m.heardNewTx bc raw = some m') : SameShares m m' := by
  rcases heardNewTx_cases h with rfl | rfl | ⟨-, -, newAcc, coinbase, -, rfl, -⟩ <;>
    exact ⟨rfl, rfl, rfl⟩

omit [TxEngine.Pow] in
theorem SameShares.addTxs (h : m.addTxsToCandidate bc c = some m') : SameShares m m' := by
  unfold addTxsToCandidate at h
  split at h
  · cases h
    exact ⟨rfl, rfl, rfl⟩
  obtain ⟨txs, -, h⟩ := bind_eq_some.1 h
  refine (run_of_repM h).invariant (SameShares m) (fun m1 raw m2 _ hstep hm1 => ?_)
    ⟨rfl, rfl, rfl⟩
  have hm2 := SameShares.heardNewTx hstep
  exact ⟨hm2.v0Shares.trans hm1.v0Shares, hm2.shares.trans hm1.shares, hm2.height.trans hm1.height⟩

omit [TxEngine.Pow] [Cheetah] in
theorem Keys.congr [Curve] (h : Keys cfg m) (hsame : SameShares m m') : Keys cfg m' := by
  obtain ⟨hv0, hv1, hbased0, hbased1⟩ := h
  rw [← hsame.v0Shares] at hv0 hbased0
  rw [← hsame.shares] at hv1 hbased1
  exact ⟨hv0, hv1, hbased0, hbased1⟩

section Acts

variable [Curve]

omit [TxEngine.Pow] in
/-- A transaction of the mempool that the miner hears of. -/
theorem Building.heardNewTx (hb : Building cfg c m) (hkeys : Keys cfg m)
    (hstored : c.getRawTx raw.id = some raw) (h : m.heardNewTx cfg.bc raw = some m') :
    Building cfg c m' ∧
      ∀ txId ∈ m'.candidateBlock.txIds, txId ∈ m.candidateBlock.txIds ∨ txId = raw.id := by
  obtain ⟨raws, hreplays⟩ := hb.replays
  -- the accumulator gets the height that it has
  have hacc : m.accAt = m.candidateAcc := by
    unfold accAt
    rw [← hreplays.height_eq]
  have hcases := heardNewTx_cases h
  rw [hacc] at hcases
  rcases hcases with rfl | rfl | ⟨hfresh, hfits, newAcc, coinbase, hprocess, rfl, hcoinbase⟩
  · exact ⟨hb, fun _ htx => .inl htx⟩
  · exact ⟨hb, fun _ htx => .inl htx⟩
  have hnew := hreplays.put hprocess hfresh hstored coinbase
  obtain ⟨emission, hemission, hsum, hsupply⟩ := hb.coins
  -- the coinbase is worth the emission and the fees, old or new
  have hpays : coinbase.isBased cfg.bc ∧ coinbase.coins.sum = emission + newAcc.fees := by
    rcases hcoinbase with ⟨hfees, rfl⟩ | ⟨hless, hsplit⟩
    · exact ⟨hb.coinbase, hfees ▸ hsum⟩
    have hassets : m.candidateBlock.coinbase.coins.sum + (newAcc.fees - m.candidateAcc.fees)
        = emission + newAcc.fees := by omega
    rw [hassets] at hsplit
    have hbound := hnew.fees_le
    exact hkeys.resplit hsplit hb.rewards hemission (Nat.le_add_right _ _)
      ((Nat.add_le_add_left hbound emission).trans_lt hsupply)
  refine ⟨?_, fun txId htx => (mem_put.1 htx).symm⟩
  obtain ⟨par, hheader⟩ := hb.header
  exact { hb with
    header := ⟨par, hheader.update _ _ _ coinbase le_rfl⟩
    rewards := ⟨hb.rewards.v0, hb.rewards.v1⟩
    coinbase := hpays.1
    coins := ⟨emission, hemission, hpays.2, hsupply⟩
    replays := ⟨_, hnew⟩
    fits := hfits }

omit [TxEngine.Pow] in
/-- The mempool is added to the candidate block. -/
theorem Building.addTxs (hb : Building cfg c m) (hkeys : Keys cfg m) (hbooks : c.Bookkeeping)
    (hfair : Disentangled c m) (h : m.addTxsToCandidate cfg.bc c = some m') :
    Building cfg c m' ∧ c.Unchained m'.candidateBlock := by
  have hheight := (SameShares.addTxs h).height
  unfold addTxsToCandidate at h
  rw [if_neg (by simp [hb.keys])] at h
  obtain ⟨txs, htxs, h⟩ := bind_eq_some.1 h
  have hrun := (run_of_repM h).invariant (fun m' => Building cfg c m' ∧ Keys cfg m' ∧
      ∀ txId ∈ m'.candidateBlock.txIds, txId ∈ m.candidateBlock.txIds ∨ txId ∈ atHand c)
    ?_ ⟨hb, hkeys, fun _ htx => .inl htx⟩
  · exact ⟨hrun.1, unchained_of_subset hfair hheight fun txId htx =>
      mem_uni.2 (hrun.2.2 txId htx)⟩
  intro m1 raw m2 hraw hstep ⟨hb1, hkeys1, hsub1⟩
  obtain ⟨hstored, hhand⟩ := mem_candidateTxs hbooks htxs (mem_preorder.1 hraw)
  obtain ⟨hb2, hsub2⟩ := hb1.heardNewTx hkeys1 hstored hstep
  refine ⟨hb2, hkeys1.congr (.heardNewTx hstep), fun txId htx => ?_⟩
  rcases hsub2 txId htx with hold | rfl
  · exact hsub1 txId hold
  · exact .inr hhand

variable {now : Nat} {bc : BlockchainConstants}

omit [TxEngine.Pow] [Curve] in
/-- `heard-new-block` leaves the miner alone, or starts with an empty block on the heaviest one. -/
theorem heardNewBlock_cases (h : m.heardNewBlock bc c now = some m') :
    m' = m ∧ (c.heaviestBlock = none ∨ c.heaviestBlock = some m.candidateBlock.parent ∨
        m.noKeysSet) ∨
      ∃ heaviest pag, c.heaviestBlock = some heaviest ∧ heaviest ≠ m.candidateBlock.parent ∧
        m.noKeysSet = false ∧ candidateOn bc m c heaviest now = some pag ∧
        (m.startOn c heaviest pag).addTxsToCandidate bc c = some m' := by
  unfold heardNewBlock at h
  split at h
  case h_1 hnone => exact .inl ⟨(some.inj h).symm, .inl hnone⟩
  case h_2 heaviest hheaviest =>
    split at h
    case isTrue hparent =>
      exact .inl ⟨(some.inj h).symm, .inr (.inl (hparent ▸ hheaviest))⟩
    case isFalse hparent =>
      split_ifs at h with hkeys
      · exact .inl ⟨(some.inj h).symm, .inr (.inr hkeys)⟩
      obtain ⟨parent, hblock, h⟩ := bind_eq_some.1 h
      obtain ⟨target, htarget, h⟩ := bind_eq_some.1 h
      have hon : (candidateOn bc m c heaviest now).bind
          (fun pag => (m.startOn c heaviest pag).addTxsToCandidate bc c) = some m' := by
        simp only [candidateOn, hblock, htarget, bind_eq_bind, bind_some]
        revert h
        cases parent.coinbase with
        | v0 _ => dsimp only; split <;> exact fun h => h
        | v1 _ => exact fun h => h
      obtain ⟨pag, hpag, hadd⟩ := bind_eq_some.1 hon
      exact .inr ⟨heaviest, pag, hheaviest, hparent, Bool.eq_false_iff.2 hkeys, hpag, hadd⟩

/-- An empty page on a block, with the constants that its version reads. -/
structure Started (cfg : Config) (c : State) (m : Mining) (heaviest : Digest) (now : Nat)
    (bc : BlockchainConstants) (par pag : Page) (emission : Nat) : Prop where
  block : c.blocks.get heaviest = some par
  target : c.targets.get heaviest = some pag.target
  page : pag = emptyPage bc par (timeInSecs now) pag.target pag.coinbase
  emits : emissionCalc pag.height = some emission
  split : bc = cfg.bc ∧ (∃ split, newSplit emission m.v0Shares = some split ∧
        pag.coinbase = .v0 split) ∨
      bc = {} ∧ ∃ split, newSplit emission m.shares = some split ∧ pag.coinbase = .v1 split

variable {heaviest : Digest} {pag : Page}

omit [TxEngine.Pow] [Cheetah] [Curve] in
/-- What the miner starts from when it makes a candidate. -/
theorem started_of_candidateOn (h : candidateOn cfg.bc m c heaviest now = some pag) :
    ∃ bc par emission, Started cfg c m heaviest now bc par pag emission := by
  obtain ⟨par, hblock, h⟩ := bind_eq_some.1 h
  obtain ⟨target, htarget, h⟩ := bind_eq_some.1 h
  have hv1 : newCandidate par (timeInSecs now) target m.shares = some pag →
      ∃ bc par emission, Started cfg c m heaviest now bc par pag emission := by
    intro h
    obtain ⟨emission, hemission, h⟩ := bind_eq_some.1 h
    obtain ⟨split, hsplit, h⟩ := bind_eq_some.1 h
    cases h
    exact ⟨{}, par, emission, hblock, htarget, rfl, hemission, .inr ⟨rfl, split, hsplit, rfl⟩⟩
  split at h
  · split at h
    · obtain ⟨emission, hemission, h⟩ := bind_eq_some.1 h
      obtain ⟨split, hsplit, h⟩ := bind_eq_some.1 h
      cases h
      exact ⟨cfg.bc, par, emission, hblock, htarget, rfl, hemission,
        .inl ⟨rfl, split, hsplit, rfl⟩⟩
    · exact hv1 h
  · exact hv1 h

omit [Curve] in
/-- The header of an empty page. -/
theorem Started.header {now emission : Nat}
    {par pag : Page} (h : Started cfg c m heaviest now bc par pag emission)
    (hfair : FairStart cfg c m now heaviest pag) (hc : Reachable cfg c) :
    pag.parent = heaviest ∧ Header cfg c pag par := by
  have hbooks := State.Bookkeeping.of_reachable hc
  have hparent : pag.parent = heaviest := by
    rw [h.page]
    exact hbooks.digest heaviest par (.inl h.block)
  -- the constants that the page was built with are those of the chain
  have hconstants : bc.blocksPerEpoch = cfg.bc.blocksPerEpoch ∧
      bc.maxTargetAtom = cfg.bc.maxTargetAtom := by
    rcases h.split with ⟨rfl, -⟩ | ⟨rfl, split, -, hsplit⟩
    · exact ⟨rfl, rfl⟩
    · obtain ⟨hepoch, htarget⟩ := hfair.constants split hsplit
      exact ⟨hepoch.symm, htarget.symm⟩
  have hcounter := hc.epochCounter_lt hfair.epoch h.block
  refine ⟨hparent, ?_⟩
  exact {
    parent := by rw [hparent, h.block]
    epoch := by
      have hpage : pag.epochCounter = if par.epochCounter + 1 = bc.blocksPerEpoch then 0
          else par.epochCounter + 1 := by rw [h.page]; rfl
      rw [checkEpochCounter, hpage]
      split
      case isTrue hlast => simp; omega
      case isFalse hmore => simp; omega
    timestamp := by
      rw [hparent]
      obtain ⟨minTimestamp, hmin, hle⟩ := hfair.clock
      refine ⟨minTimestamp, hmin, ?_⟩
      rwa [h.page]
    target := by rw [hparent, h.target]
    height := by rw [h.page]; rfl
    genesisSeal := hc.genesisSeal h.block
    heaviness := by
      have hwork : pag.accumulatedWork
          = .chunk ((Page.computeWork bc pag.target).merge + par.accumulatedWork.merge) := by
        rw [h.page]
        rfl
      rw [hwork, Nat.add_comm, Page.computeWork, Page.computeWork, hconstants.2]
    msg := by rw [h.page]; rfl }

/-- An empty block on the heaviest one is a candidate block. -/
theorem Building.start (hkeys : Keys cfg m) (hc : Reachable cfg c) (hset : m.noKeysSet = false)
    (hheaviest : c.heaviestBlock = some heaviest)
    (hon : candidateOn cfg.bc m c heaviest now = some pag)
    (hfair : FairStart cfg c m now heaviest pag) : Building cfg c (m.startOn c heaviest pag) := by
  obtain ⟨bc, par, emission, hstarted⟩ := started_of_candidateOn hon
  obtain ⟨hparent, hheader⟩ := hstarted.header hfair hc
  have hsupply := hfair.supply emission hstarted.emits
  have hbased : emission < basePrime := (Nat.le_add_right _ _).trans_lt hsupply
  have hpays : pag.coinbase.isBased cfg.bc ∧ pag.coinbase.coins.sum = emission := by
    rcases hstarted.split with ⟨-, split, hsplit, heq⟩ | ⟨-, split, hsplit, heq⟩
    · have hcovers := hfair.rewards.v0 emission hstarted.emits
      rw [heq]
      exact ⟨hkeys.isBased_v0 hsplit hcovers hbased, newSplit_sum hsplit⟩
    · have hcovers := hfair.rewards.v1 emission hstarted.emits
      rw [heq]
      exact ⟨hkeys.isBased_v1 hsplit hcovers hbased, newSplit_sum hsplit⟩
  have hempty : pag.txIds = ∅ := by rw [hstarted.page]; rfl
  exact {
    keys := hset
    heaviest := by rw [hheaviest, ← hparent]; rfl
    header := ⟨par, hheader⟩
    rewards := ⟨hfair.rewards.v0, hfair.rewards.v1⟩
    coinbase := hpays.1
    coins := ⟨emission, hstarted.emits, hpays.2, by
      show emission + Balance.total (c.balanceOf pag.parent) < basePrime
      rw [hparent]
      exact hsupply⟩
    replays := ⟨[], by
      show Run _ (TxAcc.new (c.balance.get pag.parent) pag.height) [] _
      rw [hparent]
      exact .nil _, by
      intro txId
      show txId ∈ pag.txIds ↔ _
      rw [hempty]
      simp, List.nodup_nil, fun raw hraw => by cases hraw⟩
    fits := hfair.fits }

/-! ### Moves of the consensus state -/

omit [TxEngine.Pow] [Curve] in
/-- A candidate block stays one while its parent is the heaviest block and its transactions are in
the mempool. -/
theorem Building.frame (hb : Building cfg c m) (hunchained : c.Unchained m.candidateBlock)
    (hsame : SameParent c c' m.candidateBlock.parent)
    (hheaviest : c'.heaviestBlock = c.heaviestBlock)
    (hraws : ∀ txId v, c.rawTxs.get txId = some v → c'.rawTxs.get txId = some v) :
    Building cfg c' m ∧ c'.Unchained m.candidateBlock := by
  have hget : ∀ {txId raw}, c.getRawTx txId = some raw → c'.getRawTx txId = some raw := by
    intro txId raw hget
    obtain ⟨v, hv, rfl⟩ := map_eq_some_iff.1 hget
    rw [getRawTx, hraws txId v hv]
    rfl
  obtain ⟨raws, hreplays⟩ := hb.replays
  have hreplays' : Replays cfg.bc c' m.candidateBlock raws m.candidateAcc := by
    refine ⟨?_, hreplays.mem, hreplays.nodup, fun raw hraw => hget (hreplays.stored raw hraw)⟩
    have hnew : TxAcc.new (c'.balance.get m.candidateBlock.parent) m.candidateBlock.height
        = TxAcc.new (c.balance.get m.candidateBlock.parent) m.candidateBlock.height := by
      unfold TxAcc.new
      rw [show (c'.balance.get m.candidateBlock.parent).getD ∅ = _ from hsame.balance]
      rfl
    rw [hnew]
    exact hreplays.run
  refine ⟨?_, fun raw hraw raw' hraw' => ?_⟩
  · obtain ⟨par, hheader⟩ := hb.header
    obtain ⟨emission, hemission, hsum, hsupply⟩ := hb.coins
    exact { hb with
      heaviest := hheaviest.trans hb.heaviest
      header := ⟨par, { hheader with
        parent := hsame.blocks.trans hheader.parent
        timestamp := by rw [hsame.minTimestamps]; exact hheader.timestamp
        target := hsame.targets.trans hheader.target }⟩
      coins := ⟨emission, hemission, hsum, by rw [hsame.balance]; exact hsupply⟩
      replays := ⟨raws, hreplays'⟩ }
  · exact hunchained raw (hreplays.perm.mem_iff.1 (hreplays'.perm.mem_iff.2 hraw)) raw'
      (hreplays.perm.mem_iff.1 (hreplays'.perm.mem_iff.2 hraw'))

/-! ### Acts of the miner -/

/-- The candidate block, if there is one: a block of height zero is not built on another. -/
def Builds (cfg : Config) (c : State) (m : Mining) : Prop :=
  m.candidateBlock.height ≠ 0 → Building cfg c m ∧ c.Unchained m.candidateBlock

/-- A block on the heaviest one, and what is at hand. The old candidate block is kept only if its
parent still is the heaviest block. -/
theorem builds_heardNewBlock (hkeys : Keys cfg m) (hc : Reachable cfg c)
    (hset : m.candidateBlock.height ≠ 0 → m.noKeysSet = false ∧ c.heaviestBlock ≠ none)
    (hsame : c.heaviestBlock = some m.candidateBlock.parent → Builds cfg c m)
    (hfair : (Kernel.Act.heardNewBlock now).Fair cfg c m)
    (h : m.heardNewBlock cfg.bc c now = some m') : Keys cfg m' ∧ Builds cfg c m' := by
  rcases heardNewBlock_cases h with ⟨rfl, hwhy⟩ | ⟨heaviest, pag, hheaviest, hne, hnokeys, hon,
    hadd⟩
  · refine ⟨hkeys, fun hheight => ?_⟩
    obtain ⟨hset, hsome⟩ := hset hheight
    rcases hwhy with hnone | hparent | hunset
    · exact absurd hnone hsome
    · exact hsame hparent hheight
    · rw [hset] at hunset
      cases hunset
  · have hstart := hfair heaviest pag hheaviest hne hon
    have hb := Building.start hkeys hc hnokeys hheaviest hon hstart
    have hkeys' : Keys cfg (m.startOn c heaviest pag) :=
      ⟨hkeys.v0, hkeys.v1, hkeys.basedV0, hkeys.basedV1⟩
    obtain ⟨bc, par, emission, hstarted⟩ := started_of_candidateOn hon
    have hfree : Disentangled c (m.startOn c heaviest pag) := by
      refine unchained_of_subset hstart.unchained rfl fun txId htx => ?_
      rcases mem_uni.1 htx with hold | hhand
      · have hempty : pag.txIds = ∅ := by rw [hstarted.page]; rfl
        rw [show (m.startOn c heaviest pag).candidateBlock.txIds = ∅ from hempty] at hold
        exact absurd hold (not_mem_empty txId)
      · exact hhand
    exact ⟨hkeys'.congr (.addTxs hadd), fun _ => hb.addTxs hkeys' (.of_reachable hc) hfree hadd⟩

/-- New keys: they are set, and their shares cover the emission of the candidate block. -/
theorem builds_setKeys {v0 : List (Sig × Nat)} {v1 : List (Digest × Nat)}
    (hbuilds : Builds cfg c m) (hfair : (Kernel.Act.setKeys v0 v1).Fair cfg c m)
    (h : (Kernel.Act.setKeys v0 v1).does cfg c m = some m') : Keys cfg m' ∧ Builds cfg c m' := by
  obtain ⟨⟨hv0, hv1⟩, hbased0, hbased1, hrewards⟩ := hfair
  obtain ⟨m1, hm1, h⟩ := bind_eq_some.1 h
  obtain ⟨_, hvalid0, hm1⟩ := bind_eq_some.1 hm1
  obtain ⟨_, hvalid1, h⟩ := bind_eq_some.1 h
  rw [guard_eq_some'] at hvalid0 hvalid1
  cases hm1
  cases h
  refine ⟨⟨hvalid0, hvalid1, forall_tap_gas hbased0, forall_tap_gas hbased1⟩, fun hheight => ?_⟩
  obtain ⟨hb, hunchained⟩ := hbuilds hheight
  have hrewards := hrewards hheight
  refine ⟨{ hb with keys := ?_, rewards := ⟨hrewards.v0, hrewards.v1⟩ }, hunchained⟩
  rw [noKeysSet, decide_eq_false (gas_ne_empty hv0), decide_eq_false (gas_ne_empty hv1)]
  rfl

/-- A proof and a digest for the candidate block. -/
theorem builds_setPow {prf : Noun} (hkeys : Keys cfg m) (hbuilds : Builds cfg c m)
    (hfair : (Kernel.Act.setPow prf).Fair cfg c m) (h : m.setPow prf = some m') :
    Keys cfg m' ∧ Builds cfg c m' := by
  have hfits := hfair m' h
  obtain ⟨digest, -, h⟩ := bind_eq_some.1 h
  cases h
  refine ⟨⟨hkeys.v0, hkeys.v1, hkeys.basedV0, hkeys.basedV1⟩, fun hheight => ?_⟩
  obtain ⟨hb, hunchained⟩ := hbuilds hheight
  obtain ⟨par, hheader⟩ := hb.header
  obtain ⟨raws, hreplays⟩ := hb.replays
  exact ⟨{ hb with
    header := ⟨par, hheader.update digest (some prf) _ _ le_rfl⟩
    rewards := ⟨hb.rewards.v0, hb.rewards.v1⟩
    replays := ⟨raws, hreplays.run, hreplays.mem, hreplays.nodup, hreplays.stored⟩
    fits := hfits hheight }, hunchained⟩

/-- `update-candidate-block` leaves the miner alone, or refreshes the timestamp and adds what is at
hand. -/
theorem builds_updateCandidateBlock (hkeys : Keys cfg m) (hc : Reachable cfg c)
    (hbuilds : Builds cfg c m) (hfair : (Kernel.Act.updateCandidateBlock now).Fair cfg c m)
    {changed : Bool} (h : m.updateCandidateBlock cfg.bc c now = some (changed, m')) :
    Keys cfg m' ∧ Builds cfg c m' := by
  unfold updateCandidateBlock at h
  split at h
  · cases h
    exact ⟨hkeys, hbuilds⟩
  obtain ⟨_, -, h⟩ := bind_eq_some.1 h
  split at h
  · cases h
    exact ⟨hkeys, hbuilds⟩
  rename_i hlater
  rw [not_le] at hlater
  obtain ⟨m1, hadd, h⟩ := bind_eq_some.1 h
  cases h
  have hsame := SameShares.addTxs hadd
  have hkeys' : Keys cfg { m with
      candidateBlock := { m.candidateBlock with timestamp := timeInSecs now } } :=
    ⟨hkeys.v0, hkeys.v1, hkeys.basedV0, hkeys.basedV1⟩
  refine ⟨hkeys'.congr hsame, fun hheight => ?_⟩
  rw [hsame.height] at hheight
  obtain ⟨hb, -⟩ := hbuilds hheight
  obtain ⟨hfits, hfree⟩ := hfair hheight hlater
  have hle : m.candidateBlock.timestamp ≤ timeInSecs now :=
    hlater.le.trans (Nat.div_le_div_right (Nat.sub_le _ _))
  obtain ⟨par, hheader⟩ := hb.header
  obtain ⟨raws, hreplays⟩ := hb.replays
  have hb' : Building cfg c { m with
      candidateBlock := { m.candidateBlock with timestamp := timeInSecs now } } :=
    { hb with
      header := ⟨par, hheader.update _ _ _ _ hle⟩
      rewards := ⟨hb.rewards.v0, hb.rewards.v1⟩
      replays := ⟨raws, hreplays.run, hreplays.mem, hreplays.nodup, hreplays.stored⟩
      fits := hfits }
  exact hb'.addTxs hkeys' (.of_reachable hc) hfree hadd

/-- An act that meets its condition. -/
theorem builds_act {a : Kernel.Act} (hkeys : Keys cfg m) (hc : Reachable cfg c)
    (hbuilds : Builds cfg c m) (hfair : a.Fair cfg c m) (h : a.does cfg c m = some m') :
    Keys cfg m' ∧ Builds cfg c m' := by
  cases a with
  | setKeys v0 v1 => exact builds_setKeys hbuilds hfair h
  | enable mine =>
    cases h
    refine ⟨⟨hkeys.v0, hkeys.v1, hkeys.basedV0, hkeys.basedV1⟩, fun hheight => ?_⟩
    obtain ⟨hb, hunchained⟩ := hbuilds hheight
    exact ⟨{ hb with
      rewards := ⟨hb.rewards.v0, hb.rewards.v1⟩ }, hunchained⟩
  | genesis now btcHash msg =>
    cases h
    exact ⟨⟨hkeys.v0, hkeys.v1, hkeys.basedV0, hkeys.basedV1⟩, fun hheight => absurd rfl hheight⟩
  | setPow prf => exact builds_setPow hkeys hbuilds hfair h
  | heardNewBlock now =>
    refine builds_heardNewBlock hkeys hc (fun hheight => ?_) (fun _ => hbuilds) hfair h
    obtain ⟨hb, -⟩ := hbuilds hheight
    exact ⟨hb.keys, by rw [hb.heaviest]; simp⟩
  | updateCandidateBlock now =>
    obtain ⟨⟨changed, m1⟩, hupdate, rfl⟩ := map_eq_some_iff.1 h
    exact builds_updateCandidateBlock hkeys hc hbuilds hfair hupdate
  | addTxsToCandidate =>
    have hsame := SameShares.addTxs h
    refine ⟨hkeys.congr hsame, fun hheight => ?_⟩
    rw [hsame.height] at hheight
    exact (hbuilds hheight).1.addTxs hkeys (.of_reachable hc) (hfair hheight) h

/-! ### Runs -/

omit [Curve] in
/-- A candidate block is what it is for. -/
theorem Building.mineable (hb : Building cfg c m) (hunchained : c.Unchained m.candidateBlock) :
    Mineable cfg c m where
  withoutTxs := by
    intro pow digest nowSecs hnow hproof
    obtain ⟨par, hheader⟩ := hb.header
    obtain ⟨genesisSeal, hseal⟩ := isSome_iff_exists.1 hheader.genesisSeal
    obtain ⟨minTimestamp, hmin, hle⟩ := hheader.timestamp
    have hchecked : PageChecked cfg c { m.candidateBlock with pow, digest } par nowSecs :=
      { version := hproof.version
        parent := hheader.parent
        digest := hproof.digest
        epoch := hheader.epoch
        powHash := hproof.powHash
        timestamp := ⟨minTimestamp, hmin, hle, hnow⟩
        target := hheader.target
        height := hheader.height
        checkpoint := ⟨genesisSeal, hseal, hproof.checkpoint genesisSeal hseal⟩
        heaviness := hheader.heaviness
        coinbase := hb.coinbase
        msgLength := by
          rw [hheader.msg]
          decide
        msgBased := by
          rw [hheader.msg]
          rfl }
    exact hchecked.eq_ok
  withTxs := by
    obtain ⟨raws, hreplays⟩ := hb.replays
    obtain ⟨emission, hemission, hsum, -⟩ := hb.coins
    obtain ⟨pageSize, hpage, hfits⟩ := bind_eq_some.1 hb.fits
    obtain ⟨txsSize, htxs, hfits⟩ := bind_eq_some.1 hfits
    have hle := of_decide_eq_true (some.inj hfits)
    exact hreplays.validate hunchained hpage htxs hle hemission hsum

/-- What every move keeps: the shares have passed their checks, and the candidate block is one. -/
structure Mines (cfg : Config) (k : Kernel) : Prop where
  reachable : Reachable cfg k.c
  keys : Keys cfg k.m
  builds : Builds cfg k.c k.m

theorem mines_default : Mines cfg (default : Kernel) where
  reachable := .init
  keys := ⟨rfl, rfl, fun _ hx => (by cases hx), fun _ hx => (by cases hx)⟩
  builds hheight := absurd rfl hheight

/-- An accepted block. If it is not the new heaviest one, the candidate block is left as it is. -/
theorem Mines.accept {k : Kernel} {c : State} {d : Derived} {m : Mining} {acc : TxAcc}
    (hk : Mines cfg k) (henters : Enters cfg k.c pag acc)
    (haccepted : AcceptedBlock cfg k.c k.d pag acc c d)
    (hkeeps : c.heaviestBlock = k.c.heaviestBlock → c.rawTxs = k.c.rawTxs)
    (hfair : (Kernel.Act.heardNewBlock now).Fair cfg c k.m)
    (h : k.m.heardNewBlock cfg.bc c now = some m) : Mines cfg { k with c, d, m } := by
  have hc : Reachable cfg c := hk.reachable.steps (Turn.accept henters haccepted).steps
  obtain ⟨entered, heavy, hentered, hheavy, hlast⟩ := haccepted.consensus
  have hchain : c.chain = entered.chain := by
    rcases hlast with ⟨-, rfl⟩ | ⟨retain, hgc⟩
    · exact chain_updateHeaviest hheavy
    · rw [chain_garbageCollect hgc, chain_updateHeaviest hheavy]
  have hheaviest : c.heaviestBlock ≠ none := by
    obtain ⟨x, rfl, -⟩ := updateHeaviest_cases hheavy
    rcases hlast with ⟨-, rfl⟩ | ⟨retain, hgc⟩
    · exact some_ne_none x
    · rw [heaviestBlock_garbageCollect hgc]
      exact some_ne_none x
  have hset : k.m.candidateBlock.height ≠ 0 → k.m.noKeysSet = false ∧ c.heaviestBlock ≠ none :=
    fun hheight => ⟨(hk.builds hheight).1.keys, hheaviest⟩
  have hold : c.heaviestBlock = some k.m.candidateBlock.parent → Builds cfg c k.m := by
    intro hparent hheight
    obtain ⟨hb, hunchained⟩ := hk.builds hheight
    have hsame : c.heaviestBlock = k.c.heaviestBlock := by rw [hparent, hb.heaviest]
    obtain ⟨par, hheader⟩ := hb.header
    have hentry := SameParent.of_accepted (acceptedPage_of_eq_some hentered) hheader.parent
    have hrest := SameParent.of_chain hchain k.m.candidateBlock.parent
    have hall : SameParent k.c c k.m.candidateBlock.parent :=
      ⟨hrest.blocks.trans hentry.blocks, hrest.minTimestamps.trans hentry.minTimestamps,
        hrest.targets.trans hentry.targets, hrest.balance.trans hentry.balance⟩
    exact hb.frame hunchained hall hsame fun txId v hget => by rw [hkeeps hsame]; exact hget
  obtain ⟨hkeys', hbuilds'⟩ := builds_heardNewBlock hk.keys hc hset hold hfair h
  exact ⟨hc, hkeys', hbuilds'⟩

theorem Mines.move {k k' : Kernel} (hk : Mines cfg k)
    (h : Kernel.Move cfg (fun c m a => a.Fair cfg c m) k k') : Mines cfg k' := by
  cases h with
  | mempool hstep hchain hheaviest hkeeps =>
    refine ⟨hk.reachable.step hstep, hk.keys, fun hheight => ?_⟩
    obtain ⟨hb, hunchained⟩ := hk.builds hheight
    exact hb.frame hunchained (.of_chain hchain _) hheaviest hkeeps
  | highest => exact ⟨hk.reachable, hk.keys, hk.builds⟩
  | accept henters haccepted hkeeps hfair h => exact hk.accept henters haccepted hkeeps hfair h
  | act hfair h =>
    obtain ⟨hkeys', hbuilds'⟩ := builds_act hk.keys hk.reachable hk.builds hfair h
    exact ⟨hk.reachable, hkeys', hbuilds'⟩
  | command => exact ⟨hk.reachable, hk.keys, hk.builds⟩

theorem mines_of_moves {k : Kernel}
    (h : ReflTransGen (Kernel.Move cfg fun c m a => a.Fair cfg c m) default k) : Mines cfg k := by
  induction h with
  | refl => exact mines_default
  | tail _ hmove ih => exact ih.move hmove

/-- Along the moves of a kernel that meet the conditions of the miner, every candidate block on
another block is mineable. -/
theorem mineable_of_moves {k : Kernel}
    (h : ReflTransGen (Kernel.Move cfg fun c m a => a.Fair cfg c m) default k)
    (hheight : k.m.candidateBlock.height ≠ 0) : Mineable cfg k.c k.m := by
  obtain ⟨hb, hunchained⟩ := (mines_of_moves h).builds hheight
  exact hb.mineable hunchained

end Acts

end Candidate

/-! ### A share that is too small -/

section SmallShare

/-- A key, and the noun of the lock that it opens. -/
def smallKey (n : Nat) : SchnorrPubkey := ⟨⟨n, 0, 0, 0, 0, 0⟩, ⟨0, 0, 0, 0, 0, 0⟩, false⟩

def smallLockNoun (n : Nat) : Noun :=
  .cell (.atom 1) (.cell (toNoun (smallKey n)) (.cell (.atom 0) (.atom 0)))

-- What the genesis page, the order of the two locks and the candidate block hash.
local instance smallTip5 : Tip5 :=
  tableTip5
    [.atom 0, toNoun (Bignum.mk [0]), toNoun (Bignum.mk [3]), smallLockNoun 1, smallLockNoun 2,
      toNoun (smallKey 1), toNoun (smallKey 2), .atom 1, .atom (2 ^ 32), .atom 300,
      toNoun (Bignum.mk [6])]
    ([(0, 0), (4, 1), (2, 3), (0, 5), (0, 7), (0, 9), (0, 11), (0, 13), (0, 15), (10, 1), (14, 19),
      (21, 0), (12, 1), (14, 25), (27, 16), (29, 1), (0, 31), (23, 33), (14, 0), (20, 37), (2, 39),
      (14, 41), (18, 43), (35, 45), (0, 47), (17, 49), (0, 51)].map
        fun x => (.ofNat x.1, .ofNat x.2))

local instance smallPow : Pow := firstPow

local instance smallCheetah : Cheetah := ⟨fun _ _ _ _ => true⟩

local instance smallCurve : Curve := ⟨fun _ => true⟩

def smallConfig : Config :=
  { bc := { genesisTargetAtom := 0, maxTargetAtom := 3, checkPowFlag := false }
    genesisSeal := some (.ofNat 0)
    realnetGenesisMsg := .ofNat 1
    checkpointedDigests := ∅ }

def smallGenesis : Page := plainGenesis 17 0

def smallLock (n : Nat) : Sig := ⟨1, put ∅ (smallKey n)⟩

/-- A node that hears genesis, with one part of the reward in more than `2 ^ 40` for the first
lock. -/
def smallPokes : List (Wire × Nat × Cause) :=
  [(.sys, 0, .btcData none), (.sys, 0, .born), (.libp2p 0, 0, .heardBlock smallGenesis),
    (.sys, 0, .setMiningKeys [(smallLock 1, 1), (smallLock 2, 2 ^ 40)] [(.ofNat 1, 1)]),
    (.sys, 300 * 2 ^ 64, .enableMining true)]

/-- The candidate block is refused for its coinbase, with a digest that is right. -/
abbrev SmallEnd (k : Kernel) : Prop :=
  k.m.noKeysSet = false ∧ k.m.candidateBlock.height = 1 ∧
    k.m.candidateBlock.coinbase.coins = [2 ^ 32, 0] ∧ k.m.candidateBlock.timestamp = 300 ∧
    Page.checkDigest { k.m.candidateBlock with pow := none, digest := .ofNat 53 } = some true ∧
    k.c.validatePageWithoutTxs smallConfig
      { k.m.candidateBlock with pow := none, digest := .ofNat 53 } 300
        = some (.error .coinbaseSplitNotBased)

theorem exists_smallEnd :
    ∃ k, (default : Kernel).pokes smallConfig smallPokes = some k ∧ SmallEnd k :=
  exists_some_of_any SmallEnd (by decide +kernel)

theorem not_mineable_smallShare : ∃ k : Kernel, Kernel.Reachable smallConfig k ∧
    k.m.noKeysSet = false ∧ k.m.candidateBlock.height = 1 ∧
    k.m.candidateBlock.coinbase.coins = [2 ^ 32, 0] ∧ k.c.validatePageWithoutTxs smallConfig
      { k.m.candidateBlock with pow := none, digest := .ofNat 53 } 300
        = some (.error .coinbaseSplitNotBased) ∧ ¬ Mineable smallConfig k.c k.m := by
  obtain ⟨k, hrun, hkeys, hheight, hcoins, htime, hdigest, hrefused⟩ := exists_smallEnd
  refine ⟨k, .pokes .init hrun, hkeys, hheight, hcoins, hrefused, fun hmineable => ?_⟩
  have hproof : ProofChecked smallConfig
      { k.m.candidateBlock with pow := none, digest := .ofNat 53 } :=
    ⟨rfl, hdigest, rfl, fun genesisSeal hseal => by
      cases hseal
      rfl⟩
  have hok := hmineable.withoutTxs none (.ofNat 53) 300 (by rw [htime]; decide) hproof
  rw [hrefused] at hok
  cases hok

end SmallShare

/-! ### A block with a transaction, for two keys -/

section Paying

attribute [local instance] lateTip5 latePow lateCheetah lateCurve

def payingAct : Kernel.Act :=
  .setKeys [(⟨1, put ∅ (smallKey 1)⟩, 1), (⟨1, put ∅ (smallKey 2)⟩, 2)] [(.ofNat 1, 1)]

/-- The node accepts genesis and a page on it, and hears a transaction that spends the coinbase of
the page. The operator then sets two keys, and the miner starts its block. -/
def payingRun : Option (Kernel × Kernel × State × Mining × Mining) := do
  let (_, first) ← Kernel.acceptBlock lateConfig default 0 lateGenesis default
  let (_, second) ← first.processBlockWithTxs lateConfig 0 (latePage 58986 412648 1) []
  let (_, c) ← second.c.addRawTx lateRaw
  let m ← payingAct.does lateConfig c second.m
  let m' ← (Kernel.Act.heardNewBlock (300 * 2 ^ 64)).does lateConfig c m
  pure (first, second, c, m, m')

/-- Without keys there is no candidate block on a block. -/
abbrev NoCandidate (m : Mining) (c : State) (x : Digest) : Prop :=
  c.heaviestBlock = some x ∧ candidateOn lateConfig.bc m c x 0 = none

/-- What the miner finds when it starts the block on the page. -/
abbrev PayingStart (c : State) (m : Mining) : Prop :=
  c.heaviestBlock = some (.ofNat 58986) ∧
    (c.minTimestamps.get (.ofNat 58986)).any (fun t => t ≤ 300) = true ∧
    (∀ x ∈ m.v0Shares.tap, (m.v0Shares.tap.map Prod.snd).sum ≤ x.2 * 2 ^ 32) ∧
    (∀ x ∈ m.shares.tap, (m.shares.tap.map Prod.snd).sum ≤ x.2 * 2 ^ 32) ∧
    2 ^ 32 + Balance.total (c.balanceOf (.ofNat 58986)) < basePrime ∧
    c.pageTxs { (default : Page) with txIds := atHand c } = [lateRaw] ∧
    (candidateOn lateConfig.bc m c (.ofNat 58986) (300 * 2 ^ 64)).any (fun pag =>
      pag.height = 2 && (pag.coinbase matches .v0 _) &&
        (m.startOn c (.ofNat 58986) pag).candidateBlockBelowMaxSize lateConfig.bc = some true) = true

/-- The block has the transaction, and its reward and fee are split in two. -/
abbrev PayingEnd (m : Mining) : Prop :=
  m.candidateBlock.height = 2 ∧ m.candidateBlock.txIds = put ∅ (.ofNat 504483) ∧
    m.candidateBlock.coinbase.coins.sum = 2 ^ 33 - 1 ∧ m.candidateBlock.coinbase.coins.length = 2

abbrev PayingRun (x : Kernel × Kernel × State × Mining × Mining) : Prop :=
  NoCandidate default x.1.c (.ofNat 412648) ∧
    NodePasses (latePage 58986 412648 1) x.1 ∧
    (x.1.c.blocks.has (.ofNat 58986) || x.1.c.pendingBlocks.has (.ofNat 58986)) = false ∧
    (x.1.c.validatePageWithTxs lateConfig.bc (latePage 58986 412648 1)).any
      (fun r => r.toBool) = true ∧
    NoCandidate x.1.m x.2.1.c (.ofNat 58986) ∧ x.2.1.m.candidateBlock.height = 0 ∧
    PayingStart x.2.2.1 x.2.2.2.1 ∧ PayingEnd x.2.2.2.2

theorem exists_payingRun : ∃ x, payingRun = some x ∧ PayingRun x :=
  exists_some_of_any PayingRun (by decide +kernel)

theorem NoCandidate.fair {m : Mining} {c : State} {x : Digest} (h : NoCandidate m c x) :
    Kernel.Act.Fair lateConfig c m (.heardNewBlock 0) := by
  intro heaviest pag hget _ hcand
  cases h.1.symm.trans hget
  cases h.2.symm.trans hcand

/-- The outputs of the transaction are not among its inputs. -/
theorem lateRaw_unchained : (lateRaw.outputNotes 2).all (fun notes =>
    notes.all fun note => note.name ∉ lateRaw.inputNames) = true := by
  decide +kernel

theorem PayingStart.fair {m : Mining} {c : State} (h : PayingStart c m) :
    Kernel.Act.Fair lateConfig c m (.heardNewBlock (300 * 2 ^ 64)) := by
  obtain ⟨hheaviest, hclock, hv0, hv1, hsupply, htxs, hpag⟩ := h
  intro heaviest pag hget _ hcand
  cases hheaviest.symm.trans hget
  rw [hcand, any_some, Bool.and_eq_true, Bool.and_eq_true, decide_eq_true_eq,
    decide_eq_true_eq] at hpag
  obtain ⟨⟨hheight, hversion⟩, hfits⟩ := hpag
  have hemission : ∀ emission, emissionCalc pag.height = some emission → emission = 2 ^ 32 := by
    intro emission hemission
    rw [hheight] at hemission
    exact (some_inj.1 ((by decide : emissionCalc 2 = some (2 ^ 32)).symm.trans
      hemission)).symm
  obtain ⟨t, ht, hle⟩ := exists_some_of_any (fun t => t ≤ 300) hclock
  exact {
    clock := ⟨t, ht, hle⟩
    epoch := by decide
    constants := fun split hsplit => by
      rw [hsplit] at hversion
      cases hversion
    rewards := {
      v0 := fun emission he => hemission emission he ▸ hv0
      v1 := fun emission he => hemission emission he ▸ hv1 }
    supply := fun emission he => hemission emission he ▸ hsupply
    unchained := by
      have hpage : c.pageTxs { pag with txIds := atHand c } = [lateRaw] := htxs
      refine State.unchained_of_all hpage fun raw hraw raw' hraw' => ?_
      rw [List.mem_singleton.1 hraw, List.mem_singleton.1 hraw', show pag.height = 2 from hheight]
      exact lateRaw_unchained
    fits := hfits }

/-- A run in which the condition of every act is met, to a block that has a transaction. -/
theorem mineable_paying : ∃ k : Kernel, PayingEnd k.m ∧ Mineable lateConfig k.c k.m := by
  obtain ⟨⟨first, second, c, m, m'⟩, hrun, hnone, ⟨-, hheight, hparent, -, hchecked, hpow⟩, hfresh,
    hvalid, hnone', hzero, hstart, hend⟩ := exists_payingRun
  simp only [payingRun, bind_eq_some] at hrun
  obtain ⟨⟨effs, k⟩, hfirst, ⟨effs', k'⟩, hsecond, ⟨ready, c'⟩, hadd, m1, hkeys, m2, hheard, hrun⟩ :=
    hrun
  cases hrun
  have hgenesis : checkGenesis lateConfig lateGenesis none = some true := by decide +kernel
  obtain ⟨c0, d0, m0, rfl, haccepted, hkeeps, hm0⟩ := Kernel.acceptedBlock_of_eq_some hfirst
  have hmoves : ReflTransGen (Kernel.Move lateConfig fun c m a => a.Fair lateConfig c m) default
      { (default : Kernel) with c := c0, d := d0, m := m0 } :=
    .single (.accept (.genesis rfl hgenesis) haccepted hkeeps hnone.fair hm0)
  obtain ⟨r, hr, hsecond⟩ := bind_eq_some.1 hsecond
  cases r with
  | error t =>
    rw [hr] at hvalid
    cases hvalid
  | ok acc =>
    obtain ⟨c1, d1, m3, rfl, haccepted, hkeeps, hm3⟩ := Kernel.acceptedBlock_of_eq_some hsecond
    have hpage := hmoves.tail (.accept
      (.page (.inl ⟨hheight, hparent, hfresh, ⟨_, hchecked⟩, hpow⟩) hr) haccepted hkeeps hnone'.fair
      hm3)
    have hheardTx := hpage.tail (.addRawTx heardTx_lateRaw hadd)
    have hset := hheardTx.tail (.act (a := payingAct)
      ⟨by decide, by decide +kernel, by decide +kernel, fun h => absurd hzero h⟩ hkeys)
    have hstarted := hset.tail (.act (a := .heardNewBlock (300 * 2 ^ 64)) hstart.fair hheard)
    exact ⟨_, hend, mineable_of_moves hstarted (by rw [hend.1]; decide)⟩

end Paying

end Nockchain.Consensus
