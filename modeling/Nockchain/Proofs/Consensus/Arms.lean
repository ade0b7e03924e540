import Nockchain.Consensus.Chain

/-!
# `Nockchain.Proofs.Consensus.Arms`: what the arms of the consensus state change

The state falls into what the chain determines (`State.chain`: the accepted
blocks and the entries that `accept-page` makes for each of them) and the
mempool around it. Only `accept-page` changes the former; `AcceptedPage` says
how.
-/

set_option autoImplicit false

namespace Nockchain.Consensus

open Lib TxEngine State ZMap Option

/-- A check that refuses with a term, in front of others. -/
theorem refuse_eq_ok {ε α : Type} {p : Prop} [Decidable p] {t : ε} {x : Option (Except ε α)}
    {a : α} : (if p then pure (.error t) else x) = some (.ok a) ↔ ¬ p ∧ x = some (.ok a) := by
  split <;> simp_all

variable [Tip5]

namespace State

/-- What the arms of the mempool leave alone. -/
structure Chain where
  balance : ZMap Digest Balance
  txs : ZMap Digest Txs
  blocks : ZMap Digest Page
  minTimestamps : ZMap Digest Nat
  epochStart : ZMap Digest Digest
  targets : ZMap Digest Bignum

/-- The part of a state that the chain determines. -/
def chain (c : State) : Chain :=
  { balance := c.balance, txs := c.txs, blocks := c.blocks, minTimestamps := c.minTimestamps,
    epochStart := c.epochStart, targets := c.targets }

/-! ### The loops over the transactions of a page -/

variable {digest : Digest} {c : State}

theorem foldl_needTx {l : List Digest} :
    l.foldl (fun c txId => needTx digest txId c) c = { c with
      blocksNeededBy := l.foldl (fun a b => ZJug.put a b digest) c.blocksNeededBy
      excludedTxs := l.foldl ZSet.del c.excludedTxs } := by
  induction l generalizing c with
  | nil => rfl
  | cons txId l ih =>
    rw [List.foldl_cons, ih]
    rfl

/-- Making a block need its transactions changes two fields, each by a loop of its own. -/
theorem rep_needTx {s : ZSet Digest} :
    s.rep (needTx digest) c = { c with
      blocksNeededBy := s.rep (fun b a => ZJug.put a b digest) c.blocksNeededBy
      excludedTxs := s.rep (fun txId excluded => excluded.del txId) c.excludedTxs } := by
  simp only [ZSet.rep, Tree.fold_eq]
  exact foldl_needTx

theorem unneedTx_eq {digest txId : Digest} :
    unneedTx digest txId c = { c with
      blocksNeededBy := ZJug.del c.blocksNeededBy txId digest
      excludedTxs := (unneedTx digest txId c).excludedTxs } := by
  unfold unneedTx
  dsimp only
  split <;> rfl

theorem foldl_unneedTx {l : List Digest} :
    l.foldl (fun c txId => unneedTx digest txId c) c = { c with
      blocksNeededBy := l.foldl (fun a b => ZJug.del a b digest) c.blocksNeededBy
      excludedTxs := (l.foldl (fun c txId => unneedTx digest txId c) c).excludedTxs } := by
  induction l generalizing c with
  | nil => rfl
  | cons txId l ih =>
    rw [List.foldl_cons, ih, List.foldl_cons, unneedTx_eq]

/-- So does rejecting it, though the second loop reads what the first one leaves. -/
theorem rep_unneedTx {s : ZSet Digest} :
    s.rep (unneedTx digest) c = { c with
      blocksNeededBy := s.rep (fun b a => ZJug.del a b digest) c.blocksNeededBy
      excludedTxs := (s.rep (unneedTx digest) c).excludedTxs } := by
  simp only [ZSet.rep, Tree.fold_eq]
  exact foldl_unneedTx

/-! ### The mempool -/

variable {c' : State} {raw : RawTx} {pag : Page} {txId blockId : Digest}
  {ready missing : List Digest} {retain : Option Nat}

/-! What each arm of the mempool checks, and the few fields that it changes. -/

/-- Inverting `add-raw-tx`: which fields change, and to what. -/
theorem addRawTx_eq_some (h : c.addRawTx raw = some (ready, c')) :
    c.rawTxs.get raw.id = none ∧ ∃ height, c.getCurHeight = some height ∧ ∃ excludedTxs,
      c' = { c with
        rawTxs := c.rawTxs.put raw.id (raw, height)
        spentBy := raw.inputNames.rep (fun nname sb => ZJug.put sb nname raw.id) c.spentBy
        excludedTxs } ∧
      (ZJug.get c.blocksNeededBy raw.id = ∅ ∧ ready = [] ∧ excludedTxs = c.excludedTxs.put raw.id ∨
        ZJug.get c.blocksNeededBy raw.id ≠ ∅ ∧ excludedTxs = c.excludedTxs ∧
          ready = (ZJug.get c.blocksNeededBy raw.id).rep (fun blockId ready =>
            match c.pendingBlocks.get blockId with
            | none => ready
            | some (pag, _) => if c'.needed pag = ∅ then blockId :: ready else ready) []) := by
  simp only [addRawTx, bind_eq_some, pure_def, guard_eq_some', Bool.not_eq_true',
    has_eq_false] at h
  obtain ⟨-, hfresh, height, hheight, h⟩ := h
  split at h
  · rename_i hbnb
    cases h
    exact ⟨hfresh, height, hheight, _, rfl, .inl ⟨hbnb, rfl, rfl⟩⟩
  · rename_i hbnb
    cases h
    exact ⟨hfresh, height, hheight, _, rfl, .inr ⟨hbnb, rfl, rfl⟩⟩

theorem dropTx_eq_some (h : c.dropTx txId = some c') :
    c.blocksNeededBy.has txId = false ∧
      ∃ raw heardAt, c.rawTxs.get txId = some (raw, heardAt) ∧ c' = { c with
        rawTxs := c.rawTxs.del txId
        excludedTxs := c.excludedTxs.del txId
        spentBy := raw.inputNames.rep (fun nname sb => ZJug.del sb nname raw.id) c.spentBy } := by
  simp only [dropTx, bind_eq_some, guard_eq_some', pure_eq_some, Bool.not_eq_true'] at h
  obtain ⟨-, hfree, -, -, ⟨raw, heardAt⟩, hget, rfl⟩ := h
  exact ⟨hfree, raw, heardAt, hget, rfl⟩

theorem acceptBlock_eq_some (h : c.acceptBlock pag = some c') :
    c.blocks.get pag.digest = none ∧ c.pendingBlocks.get pag.digest = none ∧
      c' = pag.txIds.rep (needTx pag.digest) { c with blocks := c.blocks.put pag.digest pag } := by
  simp only [acceptBlock, bind_eq_some, guard_eq_some', pure_eq_some, Bool.not_eq_true',
    has_eq_false] at h
  obtain ⟨-, hblock, -, hnot, rfl⟩ := h
  exact ⟨hblock, hnot, rfl⟩

theorem addPendingBlock_eq_some (h : c.addPendingBlock pag = some (missing, c')) :
    c.blocks.get pag.digest = none ∧ c.pendingBlocks.get pag.digest = none ∧
      (missing = [] ∧ c' = c ∨ c.needed pag ≠ ∅ ∧ missing = (c.needed pag).tap ∧ ∃ height,
          c' = pag.txIds.rep (needTx pag.digest)
            { c with pendingBlocks := c.pendingBlocks.put pag.digest (pag, height) }) := by
  simp only [addPendingBlock, bind_eq_some, guard_eq_some', pure_def,
    Bool.not_eq_true', has_eq_false] at h
  obtain ⟨-, hblock, -, hnot, h⟩ := h
  refine ⟨hblock, hnot, ?_⟩
  split at h
  · cases h
    exact .inl ⟨rfl, rfl⟩
  · rename_i hne
    obtain ⟨height, -, h⟩ := bind_eq_some.1 h
    cases h
    exact .inr ⟨hne, rfl, height, rfl⟩

theorem acceptPendingBlock_eq_some (h : c.acceptPendingBlock blockId = some c') :
    c.blocks.get blockId = none ∧
      ∃ pag heardAt, c.pendingBlocks.get blockId = some (pag, heardAt) ∧ c' = { c with
        pendingBlocks := c.pendingBlocks.del pag.digest
        blocks := c.blocks.put blockId pag } := by
  simp only [acceptPendingBlock, bind_eq_some, guard_eq_some', pure_eq_some,
    Bool.not_eq_true', has_eq_false] at h
  obtain ⟨-, hblock, ⟨pag, heardAt⟩, hget, rfl⟩ := h
  exact ⟨hblock, pag, heardAt, hget, rfl⟩

theorem rejectPendingBlock_eq_some (h : c.rejectPendingBlock blockId = some c') :
    c.blocks.get blockId = none ∧
      ∃ pag heardAt, c.pendingBlocks.get blockId = some (pag, heardAt) ∧ c' = { c with
        blocksNeededBy := pag.txIds.rep (fun b a => ZJug.del a b pag.digest) c.blocksNeededBy
        excludedTxs := (pag.txIds.rep (unneedTx pag.digest) c).excludedTxs
        pendingBlocks := c.pendingBlocks.del pag.digest } := by
  simp only [rejectPendingBlock, bind_eq_some, guard_eq_some', pure_eq_some,
    Bool.not_eq_true', has_eq_false] at h
  obtain ⟨-, hblock, ⟨pag, heardAt⟩, hget, rfl⟩ := h
  refine ⟨hblock, pag, heardAt, hget, ?_⟩
  rw [rep_unneedTx]

/-- The garbage collector keeps what the two arms that it calls keep. -/
theorem garbageCollect_invariant (P : State → Prop)
    (hreject : ∀ c blockId c', c.rejectPendingBlock blockId = some c' → P c → P c')
    (hdrop : ∀ c txId c', c.dropTx txId = some c' → P c → P c')
    (h : c.garbageCollect retain = some c') (hc : P c) : P c' := by
  simp only [garbageCollect, dropDropableBlocks, dropDropableTxs, bind_eq_some] at h
  obtain ⟨mid, ⟨blocks, -, hblocks⟩, txs, -, htxs⟩ := h
  exact (ZSet.run_of_repM htxs).invariant P (fun _ _ _ _ => hdrop _ _ _)
    ((Run.of_foldlM hblocks).invariant P (fun _ _ _ _ => hreject _ _ _) hc)

section

variable (h : c.addRawTx raw = some (ready, c'))

include h

theorem frame_addRawTx :
    c' = { c with
      rawTxs := c'.rawTxs, spentBy := c'.spentBy, excludedTxs := c'.excludedTxs } := by
  obtain ⟨-, height, -, excludedTxs, rfl, -⟩ := addRawTx_eq_some h
  rfl

/-- The raw transaction is entered at the height of the heaviest block. -/
theorem rawTxs_addRawTx : c.rawTxs.get raw.id = none ∧
      ∃ height, c.getCurHeight = some height ∧ c'.rawTxs = c.rawTxs.put raw.id (raw, height) := by
  obtain ⟨hfresh, height, hheight, excludedTxs, rfl, -⟩ := addRawTx_eq_some h
  exact ⟨hfresh, height, hheight, rfl⟩

/-- A raw transaction that is there stays. -/
theorem get_rawTxs_addRawTx {v : RawTx × Nat}
    (hget : c.rawTxs.get txId = some v) : c'.rawTxs.get txId = some v := by
  obtain ⟨hfresh, height, -, hput⟩ := rawTxs_addRawTx h
  have hne : txId ≠ raw.id := by
    rintro rfl
    rw [hfresh] at hget
    cases hget
  rw [hput, get_put, if_neg hne, hget]

end

theorem frame_addPendingBlock (h : c.addPendingBlock pag = some (missing, c')) :
    c' = { c with
      pendingBlocks := c'.pendingBlocks
      blocksNeededBy := c'.blocksNeededBy
      excludedTxs := c'.excludedTxs } := by
  obtain ⟨-, -, ⟨-, rfl⟩ | ⟨-, -, height, rfl⟩⟩ := addPendingBlock_eq_some h
  · rfl
  · rw [rep_needTx]

theorem frame_rejectPendingBlock (h : c.rejectPendingBlock blockId = some c') :
    c' = { c with
      pendingBlocks := c'.pendingBlocks
      blocksNeededBy := c'.blocksNeededBy
      excludedTxs := c'.excludedTxs } := by
  obtain ⟨-, pag, heardAt, -, rfl⟩ := rejectPendingBlock_eq_some h
  rfl

theorem frame_dropTx (h : c.dropTx txId = some c') :
    c' = { c with
      rawTxs := c'.rawTxs, spentBy := c'.spentBy, excludedTxs := c'.excludedTxs } := by
  obtain ⟨-, raw, heardAt, -, rfl⟩ := dropTx_eq_some h
  rfl

theorem chain_addRawTx (h : c.addRawTx raw = some (ready, c')) : c'.chain = c.chain := by
  rw [frame_addRawTx h]
  rfl

theorem chain_addPendingBlock (h : c.addPendingBlock pag = some (missing, c')) :
    c'.chain = c.chain := by
  rw [frame_addPendingBlock h]
  rfl

theorem chain_rejectPendingBlock (h : c.rejectPendingBlock blockId = some c') :
    c'.chain = c.chain := by
  rw [frame_rejectPendingBlock h]
  rfl

theorem chain_dropTx (h : c.dropTx txId = some c') : c'.chain = c.chain := by
  rw [frame_dropTx h]
  rfl

theorem chain_garbageCollect (h : c.garbageCollect retain = some c') : c'.chain = c.chain :=
  garbageCollect_invariant (fun c' => c'.chain = c.chain)
    (fun _ _ _ hstep hb => (chain_rejectPendingBlock hstep).trans hb)
    (fun _ _ _ hstep hb => (chain_dropTx hstep).trans hb) h rfl

/-- `update-heaviest` enters the page where there is no heaviest block or a lighter one. -/
theorem updateHeaviest_cases (h : c.updateHeaviest pag = some c') :
    ∃ x, c' = { c with heaviestBlock := some x } ∧ (c.heaviestBlock = none ∧ x = pag.digest ∨
      ∃ y old, c.heaviestBlock = some y ∧ c.blocks.get y = some old ∧ x =
        if old.accumulatedWork.merge < pag.accumulatedWork.merge then pag.digest else y) := by
  unfold updateHeaviest at h
  split at h
  case h_1 hnone =>
    obtain ⟨-, h⟩ := ite_none_right_eq_some.1 h
    exact ⟨pag.digest, (some.inj h).symm, .inl ⟨hnone, rfl⟩⟩
  case h_2 y hy =>
    obtain ⟨old, hold, h⟩ := bind_eq_some.1 h
    refine ⟨_, (some.inj h).symm.trans ?_, .inr ⟨y, old, hy, hold, rfl⟩⟩
    simp only [Page.compareHeaviness, decide_eq_true_eq]
    split
    · rfl
    · rw [← hy]

/-- `update-heaviest` changes nothing but the heaviest block. -/
theorem frame_updateHeaviest (h : c.updateHeaviest pag = some c') :
    c' = { c with heaviestBlock := c'.heaviestBlock } := by
  obtain ⟨x, rfl, -⟩ := updateHeaviest_cases h
  rfl

theorem chain_updateHeaviest (h : c.updateHeaviest pag = some c') : c'.chain = c.chain := by
  rw [frame_updateHeaviest h]
  rfl

/-! ### Pending blocks -/

theorem pendingBlocks_addRawTx (h : c.addRawTx raw = some (ready, c')) :
    c'.pendingBlocks = c.pendingBlocks := by
  rw [frame_addRawTx h]

/-- A page that becomes pending is entered under its digest. -/
theorem pendingBlocks_addPendingBlock (h : c.addPendingBlock pag = some (missing, c')) :
    c' = c ∨ ∃ height, c'.pendingBlocks = c.pendingBlocks.put pag.digest (pag, height) := by
  obtain ⟨-, -, ⟨-, rfl⟩ | ⟨-, -, height, rfl⟩⟩ := addPendingBlock_eq_some h
  · exact .inl rfl
  · exact .inr ⟨height, by rw [rep_needTx]⟩

theorem pendingBlocks_rejectPendingBlock (h : c.rejectPendingBlock blockId = some c') :
    ∃ pag heardAt, c.pendingBlocks.get blockId = some (pag, heardAt) ∧
      c'.pendingBlocks = c.pendingBlocks.del pag.digest := by
  obtain ⟨-, pag, heardAt, hget, rfl⟩ := rejectPendingBlock_eq_some h
  exact ⟨pag, heardAt, hget, rfl⟩

/-- The pending blocks of `c'` are among those of `c`. -/
def PendingLe (c' c : State) : Prop :=
  ∀ x v, c'.pendingBlocks.get x = some v → c.pendingBlocks.get x = some v

theorem PendingLe.of_del {x : Digest} (h : c'.pendingBlocks = c.pendingBlocks.del x) :
    PendingLe c' c := by
  intro y v hget
  rw [h, get_del] at hget
  split at hget
  · cases hget
  · exact hget

theorem PendingLe.trans {c'' : State} (h : PendingLe c'' c') (h' : PendingLe c' c) :
    PendingLe c'' c := fun x v hget => h' x v (h x v hget)

theorem pendingLe_garbageCollect (h : c.garbageCollect retain = some c') : PendingLe c' c := by
  refine garbageCollect_invariant (fun c' => PendingLe c' c) ?_ ?_ h fun _ _ hget => hget
  · intro b blockId b' hstep hb
    obtain ⟨pag, heardAt, -, hdel⟩ := pendingBlocks_rejectPendingBlock hstep
    exact (PendingLe.of_del hdel).trans hb
  · intro b txId b' hstep hb
    rwa [frame_dropTx hstep]

theorem pendingBlocks_updateHeaviest (h : c.updateHeaviest pag = some c') :
    c'.pendingBlocks = c.pendingBlocks := by
  rw [frame_updateHeaviest h]

/-! ### Accepting a page -/

/-- The balances after `accept-page`: that of the accumulator, where it is not empty, and the
coinbase notes on top. -/
def enterBalance (c : State) (pag : Page) (acc : TxAcc) (notes : List Nnote) :
    ZMap Digest Balance :=
  notes.foldl (fun bal note => ZMip.put bal pag.digest note.name note)
    (if acc.balance ≠ ∅ then c.balance.put pag.digest acc.balance else c.balance)

/-- Later blocks do not change the timestamps that a page looks back on. -/
theorem prevTimestamps_mono
    (h : ∀ x pag, c.blocks.get x = some pag → c'.blocks.get x = some pag) {b : Nat}
    {acc l : List Nat} (hl : c.prevTimestamps b pag acc = some l) :
    c'.prevTimestamps b pag acc = some l := by
  induction b generalizing pag acc with
  | zero => exact hl
  | succ b ih =>
    unfold prevTimestamps at hl ⊢
    split
    · rename_i hheight
      rwa [if_pos hheight] at hl
    rename_i hheight
    rw [if_neg hheight] at hl
    obtain ⟨par, hpar, hl⟩ := bind_eq_some.1 hl
    rw [h _ _ hpar]
    exact ih hl

/-- The timestamps of a page and its ancestors are read off the accepted blocks. -/
theorem prevTimestamps_congr (h : c.blocks = c'.blocks) (b : Nat) (pag : Page) (acc : List Nat) :
    c.prevTimestamps b pag acc = c'.prevTimestamps b pag acc :=
  ext fun _ => ⟨prevTimestamps_mono fun _ _ hx => h ▸ hx,
    prevTimestamps_mono fun _ _ hx => h ▸ hx⟩

variable {bc : BlockchainConstants}

theorem updateMinTimestamps_congr (hblocks : c.blocks = c'.blocks)
    (htimes : c.minTimestamps = c'.minTimestamps) :
    c.updateMinTimestamps bc pag = c'.updateMinTimestamps bc pag := by
  unfold updateMinTimestamps
  rw [prevTimestamps_congr hblocks, htimes]

/-- How `c'` comes about when a page is accepted in `c`. Its block is the pending one, where there
is one. -/
structure AcceptedPage (bc : BlockchainConstants) (c : State) (pag : Page) (acc : TxAcc)
    (c' : State) : Prop where
  fresh : c.blocks.get pag.digest = none
  balance : ∃ notes, coinbases bc pag = some notes ∧ c'.balance = c.enterBalance pag acc notes
  epochStart : ∃ start, c.epochStartOf pag = some start ∧
    c'.epochStart = c.epochStart.put pag.digest start
  minTimestamps : c.updateMinTimestamps bc pag = some c'.minTimestamps
  targets : ∃ target,
    { c with epochStart := c'.epochStart, minTimestamps := c'.minTimestamps }.targetOf bc pag
      = some target ∧ c'.targets = c.targets.put pag.digest target
  blocks : c'.blocks
    = c.blocks.put pag.digest (((c.pendingBlocks.get pag.digest).map Prod.fst).getD pag)
  pending : PendingLe c' c

variable {acc : TxAcc}

/-- The block is the page itself, where no other page is pending under its digest. -/
theorem AcceptedPage.block (h : AcceptedPage bc c pag acc c')
    (hpending : ∀ v, c.pendingBlocks.get pag.digest = some v → v.1 = pag) :
    c'.blocks.get pag.digest = some pag := by
  rw [h.blocks, get_put, if_pos rfl]
  cases hget : c.pendingBlocks.get pag.digest with
  | none => rfl
  | some v => rw [map_some, getD_some, hpending v hget]

theorem acceptedPage_of_chain {page : Page} {notes : List Nnote} {txs : ZMap Digest Txs}
    {start : Digest} {times : ZMap Digest Nat} {target : Bignum}
    (hchain : c'.chain = ⟨c.enterBalance pag acc notes, txs, c.blocks.put pag.digest page, times,
      c.epochStart.put pag.digest start, c.targets.put pag.digest target⟩)
    (hfresh : c.blocks.get pag.digest = none) (hnotes : coinbases bc pag = some notes)
    (hstart : c.epochStartOf pag = some start)
    (htimes : c.updateMinTimestamps bc pag = some times)
    (htarget : { c with
      epochStart := c.epochStart.put pag.digest start, minTimestamps := times }.targetOf bc pag
        = some target)
    (hpage : ((c.pendingBlocks.get pag.digest).map Prod.fst).getD pag = page)
    (hpending : PendingLe c' c) : AcceptedPage bc c pag acc c' := by
  have hbalance : c'.balance = c.enterBalance pag acc notes := congrArg Chain.balance hchain
  have hblocks : c'.blocks = c.blocks.put pag.digest page := congrArg Chain.blocks hchain
  have htimes' : c'.minTimestamps = times := congrArg Chain.minTimestamps hchain
  have hepoch : c'.epochStart = c.epochStart.put pag.digest start :=
    congrArg Chain.epochStart hchain
  have htargets : c'.targets = c.targets.put pag.digest target := congrArg Chain.targets hchain
  exact {
    fresh := hfresh
    balance := ⟨notes, hnotes, hbalance⟩
    epochStart := ⟨start, hstart, hepoch⟩
    minTimestamps := htimes'.symm ▸ htimes
    targets := ⟨target, by rw [hepoch, htimes']; exact htarget, htargets⟩
    blocks := hpage.symm ▸ hblocks
    pending := hpending }

/-- The state in which `accept-page` enters the block. -/
def withEntries (c : State) (pag : Page) (acc : TxAcc) (notes : List Nnote) (start : Digest)
    (times : ZMap Digest Nat) (target : Bignum) : State :=
  { c with
    balance := c.enterBalance pag acc notes
    txs := acc.txs.rep (fun (txId, tx) txs => ZMip.put txs pag.digest txId tx) c.txs
    epochStart := c.epochStart.put pag.digest start
    minTimestamps := times
    targets := c.targets.put pag.digest target }

/-- `accept-page` makes the entries of the page and then enters its block. -/
theorem acceptPage_eq_some_iff : c.acceptPage bc pag acc = some c' ↔
    ∃ notes start times target, coinbases bc pag = some notes ∧
      c.epochStartOf pag = some start ∧ c.updateMinTimestamps bc pag = some times ∧
      { c with epochStart := c.epochStart.put pag.digest start, minTimestamps := times }.targetOf
        bc pag = some target ∧
      (if c.pendingBlocks.has pag.digest then
          (c.withEntries pag acc notes start times target).acceptPendingBlock pag.digest
        else (c.withEntries pag acc notes start times target).acceptBlock pag) = some c' := by
  have hif : (if acc.balance ≠ ∅ then
        { c with balance := c.balance.put pag.digest acc.balance } else c)
      = { c with balance :=
          if acc.balance ≠ ∅ then c.balance.put pag.digest acc.balance else c.balance } := by
    split <;> rfl
  unfold acceptPage
  rw [hif]
  simp only [bind_eq_some]
  constructor
  · rintro ⟨notes, hnotes, start, hstart, times, htimes, target, htarget, h⟩
    refine ⟨notes, start, times, target, hnotes, hstart, ?_, htarget, h⟩
    rw [← htimes]
    exact updateMinTimestamps_congr rfl rfl
  · rintro ⟨notes, start, times, target, hnotes, hstart, htimes, htarget, h⟩
    refine ⟨notes, hnotes, start, hstart, times, ?_, target, htarget, h⟩
    rw [← htimes]
    exact updateMinTimestamps_congr rfl rfl

theorem acceptedPage_of_eq_some (h : c.acceptPage bc pag acc = some c') :
    AcceptedPage bc c pag acc c' := by
  obtain ⟨notes, start, times, target, hnotes, hstart, htimes, htarget, h⟩ :=
    acceptPage_eq_some_iff.1 h
  split at h
  · obtain ⟨hfresh, page, heardAt, hget, rfl⟩ := acceptPendingBlock_eq_some h
    refine acceptedPage_of_chain rfl hfresh hnotes hstart htimes htarget ?_ (.of_del rfl)
    rw [show c.pendingBlocks.get pag.digest = some (page, heardAt) from hget]
    rfl
  · obtain ⟨hfresh, hnone, rfl⟩ := acceptBlock_eq_some h
    rw [rep_needTx]
    refine acceptedPage_of_chain rfl hfresh hnotes hstart htimes htarget ?_ fun _ _ hget => hget
    rw [show c.pendingBlocks.get pag.digest = none from hnone]
    rfl

theorem updateMinTimestamps_eq_some {times : ZMap Digest Nat}
    (h : c.updateMinTimestamps bc pag = some times) :
    ∃ l m, c.prevTimestamps (bc.minPastBlocks - 1) pag [] = some l ∧ median l = some m ∧
      times = c.minTimestamps.put pag.digest m := by
  simp only [updateMinTimestamps, bind_eq_some, pure_eq_some] at h
  obtain ⟨-, -, l, hl, m, hm, rfl⟩ := h
  exact ⟨l, m, hl, hm, rfl⟩

theorem mempool_acceptPage (h : c.acceptPage bc pag acc = some c') :
    c'.heaviestBlock = c.heaviestBlock ∧ c'.rawTxs = c.rawTxs := by
  obtain ⟨notes, start, times, target, -, -, -, -, h⟩ := acceptPage_eq_some_iff.1 h
  split at h
  · obtain ⟨-, page, heardAt, -, rfl⟩ := acceptPendingBlock_eq_some h
    exact ⟨rfl, rfl⟩
  · obtain ⟨-, -, rfl⟩ := acceptBlock_eq_some h
    rw [rep_needTx]
    exact ⟨rfl, rfl⟩

theorem heaviestBlock_garbageCollect (h : c.garbageCollect retain = some c') :
    c'.heaviestBlock = c.heaviestBlock :=
  garbageCollect_invariant (fun c' => c'.heaviestBlock = c.heaviestBlock)
    (fun _ _ _ hstep hb => by rw [frame_rejectPendingBlock hstep]; exact hb)
    (fun _ _ _ hstep hb => by rw [frame_dropTx hstep]; exact hb) h rfl

/-- A block once accepted stays. -/
theorem AcceptedPage.keeps (h : AcceptedPage bc c pag acc c') {x : Digest}
    {page : Page} (hget : c.blocks.get x = some page) : c'.blocks.get x = some page := by
  have hne : x ≠ pag.digest := by
    rintro rfl
    rw [h.fresh] at hget
    cases hget
  rwa [h.blocks, get_put, if_neg hne]

end State

/-! ### Checks -/

section Steps

variable [Pow]

/-- What `check-genesis` has checked of a page. -/
structure GenesisChecked (cfg : Config) (pag : Page) : Prop where
  coinbase : pag.coinbase = .v0 ∅
  digest : pag.checkDigest = some true
  height : pag.height = 0
  target : pag.target = .chunk cfg.bc.genesisTargetAtom
  heaviness : pag.accumulatedWork = Page.computeWork cfg.bc pag.target
  genesisSeal : cfg.genesisSeal.isSome
  epochCounter : pag.epochCounter = 0

variable {pag : Page}

theorem checkGenesis_eq_true {cfg : Config} {btcHash : Option Digest}
    (h : checkGenesis cfg pag btcHash = some true) : GenesisChecked cfg pag := by
  simp only [checkGenesis, bind_eq_some] at h
  obtain ⟨checkDigest, hdigest, checkPowHash, -, checkPowValid, -, h⟩ := h
  cases hsplit : pag.coinbase with
  | v1 split => simp [hsplit] at h
  | v0 split =>
    simp only [hsplit, bind_eq_some, pure_eq_some,
      Bool.and_eq_true, decide_eq_true_eq] at h
    obtain ⟨msgHash, hseal, hash, -, h⟩ := h
    obtain ⟨⟨⟨⟨⟨⟨⟨⟨⟨⟨⟨rfl, -⟩, -⟩, -⟩, -⟩, hepoch⟩, htarget⟩, hwork⟩, rfl⟩, hheight⟩, -⟩, -⟩ := h
    exact ⟨hsplit, hdigest, hheight, htarget, htarget ▸ hwork, by rw [hseal]; rfl, hepoch⟩

theorem computeDigest_of_check (h : pag.checkDigest = some true) :
    pag.computeDigest = some pag.digest := by
  unfold Page.checkDigest at h
  split at h
  · cases h
  · simp only [bind_eq_some, pure_eq_some, decide_eq_true_eq] at h
    obtain ⟨d, hd, heq⟩ := h
    rw [hd, heq]

/-- What `validate-page-without-txs` checks of a page and its parent. -/
structure PageChecked (cfg : Config) (c : State) (pag par : Page) (nowSecs : Nat) : Prop where
  version : checkProofVersion cfg.bc pag = some true
  parent : c.blocks.get pag.parent = some par
  digest : pag.checkDigest = some true
  epoch : checkEpochCounter cfg.bc pag par = true
  powHash : pag.checkPowHash cfg.bc = some true
  timestamp : ∃ minTimestamp, c.minTimestamps.get pag.parent = some minTimestamp ∧
    minTimestamp ≤ pag.timestamp ∧ pag.timestamp ≤ nowSecs + cfg.bc.maxFutureTimestamp
  target : c.targets.get pag.parent = some pag.target
  height : pag.height = par.height + 1
  checkpoint : ∃ genesisSeal, cfg.genesisSeal = some genesisSeal ∧
    checkCheckpoint cfg genesisSeal pag = true
  heaviness : pag.accumulatedWork =
    .chunk (par.accumulatedWork.merge + (Page.computeWork cfg.bc pag.target).merge)
  coinbase : pag.coinbase.isBased cfg.bc = true
  msgLength : pag.msg.length < 20
  msgBased : pag.msg.all based = true

theorem pageChecked_of_eq_ok {cfg : Config} {c : State} {nowSecs : Nat}
    (h : c.validatePageWithoutTxs cfg pag nowSecs = some (.ok ())) :
    ∃ par, PageChecked cfg c pag par nowSecs := by
  simp only [validatePageWithoutTxs, bind_eq_some, refuse_eq_ok] at h
  obtain ⟨version, hversion, hv, par, hpar, digest, hdigest, hd, hepoch, hash, hhash, hp, time,
    htime, hts, target, htarget, ht, hheight, h⟩ := h
  cases hseal : cfg.genesisSeal with
  | none => simp [hseal] at h
  | some genesisSeal =>
    simp only [hseal, refuse_eq_ok] at h
    obtain ⟨hcheckpoint, hwork, hbased, hlength, hmsg, -⟩ := h
    simp only [Bool.not_eq_true', Bool.not_eq_false, Bool.and_eq_true, decide_eq_true_eq, ne_eq,
      not_not, not_le] at hv hd hepoch hp hts ht hheight hcheckpoint hwork hbased hlength hmsg
    exact ⟨par, hv ▸ hversion, hpar, hd ▸ hdigest, hepoch, hp ▸ hhash, ⟨time, htime, hts⟩,
      ht ▸ htarget, hheight, ⟨genesisSeal, hseal, hcheckpoint⟩, hwork, hbased, hlength, hmsg⟩

theorem PageChecked.eq_ok {cfg : Config} {c : State} {pag par : Page} {nowSecs : Nat}
    (h : PageChecked cfg c pag par nowSecs) :
    c.validatePageWithoutTxs cfg pag nowSecs = some (.ok ()) := by
  obtain ⟨genesisSeal, hseal, hcheckpoint⟩ := h.checkpoint
  obtain ⟨minTimestamp, hmin, hle, hnow⟩ := h.timestamp
  simp [validatePageWithoutTxs, h.version, h.parent, h.digest, h.epoch, h.powHash, hmin,
    not_lt.2 hle, hnow, h.target, h.height, hseal, hcheckpoint, h.heaviness, h.coinbase,
    not_le.2 h.msgLength, h.msgBased]

/-! ### Steps -/

variable [Cheetah] {cfg : Config} {c c' : State}

/-- What a step does: it leaves the chain alone and makes pending only what was heard, or it accepts
a page. -/
inductive Shift (cfg : Config) (c c' : State) : Prop where
  | mempool (chain : c'.chain = c.chain)
      (pending : ∀ x pag heardAt, c'.pendingBlocks.get x = some (pag, heardAt) →
        c.pendingBlocks.get x = some (pag, heardAt) ∨ x = pag.digest ∧ Heard cfg c pag)
  | genesis {pag : Page} {btcHash : Option Digest} (heard : checkGenesis cfg pag btcHash = some true)
      (accepted : State.AcceptedPage cfg.bc c pag default c')
  | page {pag : Page} {acc : TxAcc}
      (heard : Heard cfg c pag ∨ ∃ heardAt, c.pendingBlocks.get pag.digest = some (pag, heardAt))
      (valid : c.validatePageWithTxs cfg.bc pag = some (.ok acc))
      (accepted : State.AcceptedPage cfg.bc c pag acc c')

/-- Of the arms, only those that accept a page touch the chain. -/
theorem Step.shift (h : Step cfg c c') : Shift cfg c c' := by
  cases h with
  | addRawTx _ h =>
    refine .mempool (chain_addRawTx h) fun x pag heardAt hget => .inl ?_
    rwa [pendingBlocks_addRawTx h] at hget
  | addPendingBlock heard h =>
    refine .mempool (chain_addPendingBlock h) fun x page heardAt hget => ?_
    rcases pendingBlocks_addPendingBlock h with rfl | ⟨height, hput⟩
    · exact .inl hget
    rw [hput, get_put] at hget
    split at hget
    · rename_i hx
      cases hget
      exact .inr ⟨hx, heard⟩
    · exact .inl hget
  | rejectPendingBlock h =>
    obtain ⟨pag, heardAt, -, hdel⟩ := pendingBlocks_rejectPendingBlock h
    exact .mempool (chain_rejectPendingBlock h) fun x pag heardAt hget =>
      .inl (State.PendingLe.of_del hdel x _ hget)
  | acceptGenesis heard h => exact .genesis heard (acceptedPage_of_eq_some h)
  | acceptPage heard valid h => exact .page heard valid (acceptedPage_of_eq_some h)
  | updateHeaviest _ h =>
    refine .mempool (chain_updateHeaviest h) fun x pag heardAt hget => .inl ?_
    rwa [pendingBlocks_updateHeaviest h] at hget
  | garbageCollect h =>
    exact .mempool (chain_garbageCollect h) fun x pag heardAt hget =>
      .inl (pendingLe_garbageCollect h x _ hget)

theorem Shift.pending (h : Shift cfg c c') {x : Digest} {heardAt : Nat}
    (hget : c'.pendingBlocks.get x = some (pag, heardAt)) :
    c.pendingBlocks.get x = some (pag, heardAt) ∨ x = pag.digest ∧ Heard cfg c pag := by
  cases h with
  | mempool _ hpending => exact hpending x pag heardAt hget
  | genesis _ haccepted | page _ _ haccepted => exact .inl (haccepted.pending x _ hget)

/-- What the checks of a page establish, and a longer chain keeps, holds of every accepted and every
pending block. -/
theorem Reachable.blockAt_of {P : State → Page → Prop}
    (hmono : ∀ c c' pag, (∀ y page, c.blocks.get y = some page → c'.blocks.get y = some page) →
      P c pag → P c' pag) (hgenesis : ∀ c pag, GenesisChecked cfg pag → P c pag)
    (hheard : ∀ c pag, Heard cfg c pag → P c pag) (h : Reachable cfg c) :
    ∀ x pag, (c.blocks.get x = some pag ∨ ∃ heardAt, c.pendingBlocks.get x = some (pag, heardAt)) →
      P c pag := by
  induction h with
  | init =>
    intro x pag hat
    rcases hat with hget | ⟨heardAt, hget⟩ <;> cases hget
  | @step c c' _ hstep ih =>
    -- a page that enters is `page` itself, or one that was pending under its digest
    have haccept : ∀ {page : Page} {acc : TxAcc}, State.AcceptedPage cfg.bc c page acc c' →
        P c page → ∀ x pag, (c'.blocks.get x = some pag ∨
          ∃ heardAt, c'.pendingBlocks.get x = some (pag, heardAt)) → P c' pag := by
      intro page acc haccepted hpage x pag hat
      refine hmono c c' pag (fun _ _ => haccepted.keeps) ?_
      rcases hat with hget | ⟨heardAt, hget⟩
      · rw [haccepted.blocks, get_put] at hget
        split at hget
        · cases hp : c.pendingBlocks.get page.digest with
          | none =>
            rw [hp] at hget
            exact some.inj hget ▸ hpage
          | some v =>
            rw [hp] at hget
            exact some.inj hget ▸ ih page.digest v.1 (.inr ⟨v.2, hp⟩)
        · exact ih x pag (.inl hget)
      · exact ih x pag (.inr ⟨heardAt, haccepted.pending x _ hget⟩)
    cases hstep.shift with
    | mempool hchain hpending =>
      have hblocks : c'.blocks = c.blocks := congrArg State.Chain.blocks hchain
      intro x pag hat
      refine hmono c c' pag (fun _ _ hget => hblocks ▸ hget) ?_
      rcases hat with hget | ⟨heardAt, hget⟩
      · exact ih x pag (.inl (hblocks ▸ hget))
      · rcases hpending x pag heardAt hget with hold | ⟨-, heard⟩
        · exact ih x pag (.inr ⟨heardAt, hold⟩)
        · exact hheard c pag heard
    | genesis heard haccepted =>
      exact haccept haccepted (hgenesis c _ (checkGenesis_eq_true heard))
    | page heard _ haccepted =>
      refine haccept haccepted ?_
      rcases heard with heard | ⟨heardAt, hget⟩
      · exact hheard c _ heard
      · exact ih _ _ (.inr ⟨heardAt, hget⟩)

omit [Cheetah] in
theorem Heard.pageChecked (h : Heard cfg c pag) :
    ∃ par nowSecs, PageChecked cfg c pag par nowSecs := by
  obtain ⟨nowSecs, hchecked⟩ := h.checked
  obtain ⟨par, hpage⟩ := pageChecked_of_eq_ok hchecked
  exact ⟨par, nowSecs, hpage⟩

/-- A node that has a block has the genesis seal. -/
theorem Reachable.genesisSeal (h : Reachable cfg c) {x : Digest}
    (hx : c.blocks.get x = some pag) : cfg.genesisSeal.isSome := by
  refine h.blockAt_of (P := fun _ _ => cfg.genesisSeal.isSome) (fun _ _ _ _ => id)
    (fun _ _ hgenesis => hgenesis.genesisSeal) (fun c pag heard => ?_) x pag (.inl hx)
  obtain ⟨par, nowSecs, hpage⟩ := heard.pageChecked
  obtain ⟨genesisSeal, hseal, -⟩ := hpage.checkpoint
  rw [hseal]
  rfl

/-- The epoch counter of a block is less than the length of an epoch. -/
theorem Reachable.epochCounter_lt (h : Reachable cfg c) (hepoch : cfg.bc.blocksPerEpoch ≠ 0)
    {x : Digest} (hx : c.blocks.get x = some pag) : pag.epochCounter < cfg.bc.blocksPerEpoch := by
  refine h.blockAt_of (P := fun _ pag => pag.epochCounter < cfg.bc.blocksPerEpoch)
    (fun _ _ _ _ => id) (fun _ pag hgenesis => ?_) (fun c pag heard => ?_) x pag (.inl hx)
  · rw [hgenesis.epochCounter]
    exact Nat.pos_of_ne_zero hepoch
  · obtain ⟨par, nowSecs, hpage⟩ := heard.pageChecked
    have hcounter := hpage.epoch
    rw [checkEpochCounter, Bool.and_eq_true] at hcounter
    exact of_decide_eq_true hcounter.1

end Steps

end Nockchain.Consensus
