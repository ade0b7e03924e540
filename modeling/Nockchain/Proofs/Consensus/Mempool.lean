import Nockchain.Proofs.Consensus.Supply

/-!
# `Nockchain.Proofs.Consensus.Mempool`: the books of the mempool

Three indexes stand beside the blocks and the transactions of a state:
`blocks-needed-by`, `excluded-txs` and `spent-by`. `Bookkeeping` says what each
of them has to be. Every arm that changes a block or a transaction keeps it, the
garbage collector by the two arms that it calls, so it holds after every
sequence of moves from the empty state (`bookkeeping_of_moves`); and a state
with it is `apt`. A state that is not is repaired, unless it excludes a
transaction that it does not have (`repairs_iff`).
-/

set_option autoImplicit false

namespace Nockchain.Consensus

open Lib TxEngine ZMap

section Mempool

variable [Tip5]

namespace State

/-- An accepted or pending block. -/
def BlockAt (c : State) (blockId : Digest) (pag : Page) : Prop :=
  c.blocks.get blockId = some pag ∨ ∃ heardAt, c.pendingBlocks.get blockId = some (pag, heardAt)

/-- An accepted or pending block has a transaction. -/
def Needs (c : State) (blockId txId : Digest) : Prop :=
  ∃ pag, c.BlockAt blockId pag ∧ txId ∈ pag.txIds

/-- The blocks and the transactions stand under their own ids, a block is not both accepted and
pending, and the three indexes are exact. -/
structure Bookkeeping (c : State) : Prop where
  digest : ∀ blockId pag, c.BlockAt blockId pag → pag.digest = blockId
  pending : ∀ blockId v, c.pendingBlocks.get blockId = some v → c.blocks.get blockId = none
  id : ∀ txId raw heardAt, c.rawTxs.get txId = some (raw, heardAt) → raw.id = txId
  needed : ∀ txId blockId, blockId ∈ ZJug.get c.blocksNeededBy txId ↔ c.Needs blockId txId
  noEmpty : ZJug.NoEmpty c.blocksNeededBy
  excluded : ∀ txId, txId ∈ c.excludedTxs ↔
    c.rawTxs.has txId = true ∧ ∀ blockId, ¬ c.Needs blockId txId
  spent : ∀ nam txId, txId ∈ ZJug.get c.spentBy nam ↔
    ∃ raw heardAt, c.rawTxs.get txId = some (raw, heardAt) ∧ nam ∈ raw.inputNames

/-- What is left of `apt` where the treaps are in order, as they are here by their type. -/
theorem apt_eq (c : State) : c.apt =
    if c.excludedTxs ≠ c.excludedTxs.int c.rawTxs.key then some .extraExcludedTxs
    else if c.excludedTxs.int c.blocksNeededBy.key ≠ ∅ then some .excludedTxsArent
    else if c.excludedTxs ≠ c.rawTxs.key.dif c.blocksNeededBy.key then some .txsFellThroughCracks
    else none := by
  simp [apt, apt_eq_true, ZSet.apt_eq_true]

/-- The last test says what the two before it say. -/
theorem apt_eq_none_iff {c : State} :
    c.apt = none ↔ c.excludedTxs = c.rawTxs.key.dif c.blocksNeededBy.key := by
  constructor
  · intro h
    by_contra hne
    rw [apt_eq] at h
    split_ifs at h
  · intro h
    have hint : c.excludedTxs.int c.rawTxs.key = c.excludedTxs := by
      rw [h]
      ext txId
      simp only [ZSet.mem_int, ZSet.mem_dif]
      tauto
    have hneeded : c.excludedTxs.int c.blocksNeededBy.key = ∅ := by
      rw [h, ZSet.eq_empty_iff]
      intro txId
      simp only [ZSet.mem_int, ZSet.mem_dif]
      tauto
    simp [apt_eq, hint, hneeded, ← h]

/-- `repair` has no case for the first reason, so that the first round ends in it. -/
theorem checkAndRepair_eq_none {c : State} (h : c.apt = some .extraExcludedTxs) (n : Nat) :
    checkAndRepair n c = none := by
  cases n with
  | zero => rfl
  | succ n =>
    rw [checkAndRepair, h]
    rfl

/-- Consistency repair does its work: it returns a state that is `apt`, and the given one where
that is `apt` already. -/
def Repairs (c : State) : Prop :=
  ∃ n c', checkAndRepair n c = some c' ∧ c'.apt = none ∧ (c.apt = none → c' = c)

/-- Repair succeeds unless a transaction is excluded that is not there. -/
theorem repairs_iff (c : State) : c.Repairs ↔ ∀ txId ∈ c.excludedTxs, c.rawTxs.has txId = true := by
  have hint : c.excludedTxs = c.excludedTxs.int c.rawTxs.key ↔
      ∀ txId ∈ c.excludedTxs, c.rawTxs.has txId = true := by
    simp [ZSet.ext_iff, ZSet.mem_int, mem_key, has_eq_true]
  constructor
  · rintro ⟨n, c', hrun, -, -⟩
    by_contra hstray
    have hapt : c.apt = some .extraExcludedTxs := by rw [apt_eq, if_pos (mt hint.1 hstray)]
    rw [checkAndRepair_eq_none hapt] at hrun
    cases hrun
  · intro hraw
    by_cases hdif : c.excludedTxs = c.rawTxs.key.dif c.blocksNeededBy.key
    · have hapt := apt_eq_none_iff.2 hdif
      exact ⟨1, c, by rw [checkAndRepair, hapt], hapt, fun _ => rfl⟩
    have hrepair : c.apt.bind c.repair
        = some { c with excludedTxs := c.rawTxs.key.dif c.blocksNeededBy.key } := by
      rw [apt_eq, if_neg (not_not.2 (hint.2 hraw))]
      split <;> rfl
    obtain ⟨reason, hapt, hreason⟩ := Option.bind_eq_some_iff.1 hrepair
    have hdone : { c with excludedTxs := c.rawTxs.key.dif c.blocksNeededBy.key }.apt = none :=
      apt_eq_none_iff.2 rfl
    refine ⟨2, _, ?_, hdone, fun h => absurd (apt_eq_none_iff.1 h) hdif⟩
    simp [checkAndRepair, hapt, hreason, hdone]

namespace Bookkeeping

variable {c c' : State} {pag : Page} {raw : RawTx} {blockId txId : Digest}

/-- A block that is needed by nothing has no entry, and the other way round. -/
theorem has_iff (h : c.Bookkeeping) {txId : Digest} :
    c.blocksNeededBy.has txId ↔ ∃ blockId, c.Needs blockId txId := by
  rw [h.noEmpty.has_iff]
  refine ⟨fun hne => ?_, fun ⟨blockId, hneeds⟩ hempty => ?_⟩
  · by_contra hall
    refine hne (ZSet.ext fun blockId => ?_)
    rw [h.needed]
    exact iff_of_false (fun hneeds => hall ⟨blockId, hneeds⟩) (ZSet.not_mem_empty _)
  · rw [← h.needed, hempty] at hneeds
    exact ZSet.not_mem_empty _ hneeds

/-- A state whose indexes are exact passes the checks of `apt`. -/
theorem apt_eq_none (h : c.Bookkeeping) : c.apt = none := by
  rw [apt_eq_none_iff]
  ext txId
  rw [h.excluded, ZSet.mem_dif, mem_key, mem_key, ← has_eq_true, ← has_eq_true,
    h.has_iff, not_exists]

/-! ### Blocks -/

theorem init : (default : State).Bookkeeping := by
  have hblock : ∀ blockId pag, ¬ (default : State).BlockAt blockId pag := by
    intro blockId pag hat
    rcases hat with hget | ⟨heardAt, hget⟩ <;> cases hget
  have hneeds : ∀ blockId txId, ¬ (default : State).Needs blockId txId :=
    fun blockId txId ⟨pag, hat, _⟩ => hblock blockId pag hat
  exact {
    digest := fun blockId pag hat => absurd hat (hblock blockId pag)
    pending := fun _ _ hget => by cases hget
    id := fun _ _ _ hget => by cases hget
    needed := fun txId blockId => iff_of_false (ZSet.not_mem_empty _) (hneeds blockId txId)
    noEmpty := fun _ _ hget => by cases hget
    excluded := fun txId => iff_of_false (ZSet.not_mem_empty _) fun hraw => by cases hraw.1
    spent := fun nam txId => iff_of_false (ZSet.not_mem_empty _) fun ⟨_, _, hget, _⟩ => by
      cases hget }

/-- Entering a block, as accepted or as pending, and making it need its transactions. -/
theorem enterBlock (h : c.Bookkeeping) (blocks : ZMap Digest Page)
    (pendingBlocks : ZMap Digest (Page × Nat)) {pag : Page}
    (hat : ∀ blockId pag', { c with blocks, pendingBlocks }.BlockAt blockId pag' ↔
      c.BlockAt blockId pag' ∨ blockId = pag.digest ∧ pag' = pag)
    (hpending : ∀ blockId v, pendingBlocks.get blockId = some v → blocks.get blockId = none) :
    (pag.txIds.rep (needTx pag.digest) { c with blocks, pendingBlocks }).Bookkeeping := by
  have hneeds : ∀ blockId txId, { c with blocks, pendingBlocks }.Needs blockId txId ↔
      c.Needs blockId txId ∨ txId ∈ pag.txIds ∧ blockId = pag.digest := by
    intro blockId txId
    unfold Needs
    simp only [hat]
    constructor
    · rintro ⟨pag', hat' | ⟨hid, rfl⟩, hmem⟩
      · exact .inl ⟨pag', hat', hmem⟩
      · exact .inr ⟨hmem, hid⟩
    · rintro (⟨pag', hat', hmem⟩ | ⟨hmem, hid⟩)
      · exact ⟨pag', .inl hat', hmem⟩
      · exact ⟨pag, .inr ⟨hid, rfl⟩, hmem⟩
  rw [rep_needTx]
  refine ⟨?_, hpending, h.id, ?_, h.noEmpty.rep_put _ _, ?_, h.spent⟩
  · intro blockId pag' hat'
    rcases (hat blockId pag').1 hat' with hat' | ⟨rfl, rfl⟩
    · exact h.digest blockId pag' hat'
    · rfl
  · intro txId blockId
    rw [ZJug.mem_get_rep_put, h.needed]
    exact (hneeds blockId txId).symm
  intro txId
  have hdel : txId ∈ pag.txIds.rep (fun txId excluded => excluded.del txId) c.excludedTxs ↔
      txId ∈ c.excludedTxs ∧ txId ∉ pag.txIds := ZSet.mem_rep_del
  rw [hdel, h.excluded]
  refine ⟨fun ⟨⟨hraw, hfree⟩, hnot⟩ => ⟨hraw, fun blockId hneed => ?_⟩,
    fun ⟨hraw, hfree⟩ => ⟨⟨hraw, fun blockId hneed => ?_⟩, fun hmem => ?_⟩⟩
  · rcases (hneeds blockId txId).1 hneed with hneed | ⟨hmem, -⟩
    · exact hfree blockId hneed
    · exact hnot hmem
  · exact hfree blockId ((hneeds blockId txId).2 (.inl hneed))
  · exact hfree pag.digest ((hneeds pag.digest txId).2 (.inr ⟨hmem, rfl⟩))

theorem acceptBlock (h : c.Bookkeeping) (hc' : c.acceptBlock pag = some c') : c'.Bookkeeping := by
  obtain ⟨hblock, hnot, rfl⟩ := acceptBlock_eq_some hc'
  refine h.enterBlock _ c.pendingBlocks (fun blockId pag' => ?_) fun blockId v hget => ?_
  · by_cases hid : blockId = pag.digest
    · simp [BlockAt, hid, hblock, hnot, eq_comm]
    · simp [BlockAt, hid]
  have hne : blockId ≠ pag.digest := by
    rintro rfl
    rw [hnot] at hget
    cases hget
  rw [get_put, if_neg hne]
  exact h.pending blockId v hget

theorem addPendingBlock (h : c.Bookkeeping) {missing : List Digest}
    (hc' : c.addPendingBlock pag = some (missing, c')) : c'.Bookkeeping := by
  obtain ⟨hblock, hnot, ⟨-, rfl⟩ | ⟨-, -, height, rfl⟩⟩ := addPendingBlock_eq_some hc'
  · exact h
  refine h.enterBlock c.blocks _ (fun blockId pag' => ?_) fun blockId v hget => ?_
  · by_cases hid : blockId = pag.digest
    · simp [BlockAt, hid, hblock, hnot, eq_comm]
    · simp [BlockAt, hid]
  rw [get_put] at hget
  split at hget
  · rename_i hid
    rw [hid, hblock]
  · exact h.pending blockId v hget

/-- The block goes from the pending ones to the accepted ones, and still needs its transactions. -/
theorem acceptPendingBlock (h : c.Bookkeeping)
    (hc' : c.acceptPendingBlock blockId = some c') : c'.Bookkeeping := by
  obtain ⟨hblock, pag, heardAt, hget, heq⟩ := acceptPendingBlock_eq_some hc'
  have hdigest : pag.digest = blockId := h.digest blockId pag (.inr ⟨heardAt, hget⟩)
  -- The block is the same as before, in the other of the two maps.
  have hat : ∀ id page, c'.BlockAt id page ↔ c.BlockAt id page := by
    intro id page
    by_cases hid : id = blockId
    · simp [heq, BlockAt, hdigest, hid, hblock, hget]
    · simp [heq, BlockAt, hdigest, hid]
  have hneeds : ∀ id txId, c'.Needs id txId ↔ c.Needs id txId := by
    intro id txId
    simp [Needs, hat]
  subst heq
  refine ⟨fun id page hpage => h.digest id page ((hat id page).1 hpage), ?_, h.id,
    fun txId id => (h.needed txId id).trans (hneeds id txId).symm, h.noEmpty, ?_, h.spent⟩
  · intro id v hv
    rw [get_del, hdigest] at hv
    split at hv
    · cases hv
    · rename_i hid
      rw [get_put, if_neg hid]
      exact h.pending id v hv
  · intro txId
    simp only [hneeds]
    exact h.excluded txId

/-- Rejecting a block excludes the transactions that no other block needs. -/
theorem mem_excludedTxs_foldl_unneedTx {digest txId : Digest} {l : List Digest}
    (hne : ZJug.NoEmpty c.blocksNeededBy) :
    txId ∈ (l.foldl (fun c txId => unneedTx digest txId c) c).excludedTxs ↔
      txId ∈ c.excludedTxs ∨ txId ∈ l ∧ c.rawTxs.has txId ∧
        ∀ blockId ∈ ZJug.get c.blocksNeededBy txId, blockId = digest := by
  induction l generalizing c with
  | nil => simp
  | cons first l ih =>
    have hdel : (ZJug.del c.blocksNeededBy first digest).has first = false ↔
        ∀ blockId ∈ ZJug.get c.blocksNeededBy first, blockId = digest := by
      rw [← Bool.not_eq_true, (hne.del first digest).has_iff, not_not, ZJug.get_del_eq_empty]
    have hfirst : txId ∈ (unneedTx digest first c).excludedTxs ↔
        txId ∈ c.excludedTxs ∨ txId = first ∧ c.rawTxs.has first ∧
          ∀ blockId ∈ ZJug.get c.blocksNeededBy first, blockId = digest := by
      unfold unneedTx
      dsimp only
      split
      · rename_i hcond
        rw [Bool.and_eq_true, Bool.not_eq_true'] at hcond
        rw [ZSet.mem_put]
        tauto
      · rename_i hcond
        rw [Bool.and_eq_true, Bool.not_eq_true'] at hcond
        tauto
    rw [List.foldl_cons, ih, unneedTx_eq]
    · -- What the later rounds find under a key is what was there, but for the rejected block.
      rw [ZJug.forall_get_del]
      grind
    · rw [unneedTx_eq]
      exact hne.del first digest

/-- A rejected block needs nothing any more; what no other block needs becomes excluded. -/
theorem rejectPendingBlock (h : c.Bookkeeping)
    (hc' : c.rejectPendingBlock blockId = some c') : c'.Bookkeeping := by
  obtain ⟨hblock, pag, heardAt, hget, heq⟩ := rejectPendingBlock_eq_some hc'
  have hdigest : pag.digest = blockId := h.digest blockId pag (.inr ⟨heardAt, hget⟩)
  have hat : ∀ page, c.BlockAt blockId page → page = pag := by
    rintro page (hpage | ⟨heard, hpage⟩)
    · rw [hblock] at hpage
      cases hpage
    · exact congrArg Prod.fst (Option.mem_unique hpage hget)
  have hown : ∀ txId, c.Needs blockId txId → txId ∈ pag.txIds := by
    rintro txId ⟨page, hpage, hmem⟩
    rwa [← hat page hpage]
  have hexcluded : ∀ txId, txId ∈ (pag.txIds.rep (unneedTx blockId) c).excludedTxs ↔
      c.rawTxs.has txId ∧ ∀ id, c.Needs id txId → id = blockId := by
    intro txId
    rw [ZSet.rep, Tree.fold_eq, mem_excludedTxs_foldl_unneedTx h.noEmpty, ZSet.mem_preorder,
      h.excluded]
    simp only [h.needed]
    constructor
    · rintro (⟨hraw, hfree⟩ | ⟨-, hraw, honly⟩)
      · exact ⟨hraw, fun id hneeds => absurd hneeds (hfree id)⟩
      · exact ⟨hraw, honly⟩
    · rintro ⟨hraw, honly⟩
      by_cases hneeds : c.Needs blockId txId
      · exact .inr ⟨hown txId hneeds, hraw, honly⟩
      · exact .inl ⟨hraw, fun id hid => hneeds (honly id hid ▸ hid)⟩
  rw [hdigest] at heq
  -- All that `c` loses is the block itself.
  have hat' : ∀ id page, c'.BlockAt id page ↔ c.BlockAt id page ∧ id ≠ blockId := by
    intro id page
    by_cases hid : id = blockId
    · simp [heq, BlockAt, hid, hblock]
    · simp [heq, BlockAt, hid]
  have hneeds' : ∀ id txId, c'.Needs id txId ↔ c.Needs id txId ∧ id ≠ blockId := by
    intro id txId
    simp only [Needs, hat']
    grind
  subst heq
  refine ⟨fun id page hpage => h.digest id page ((hat' id page).1 hpage).1, fun id v hv => ?_, h.id,
    fun txId id => ?_, h.noEmpty.rep_del _ _, fun txId => ?_, h.spent⟩
  · dsimp only at hv ⊢
    rw [get_del] at hv
    split at hv
    · cases hv
    · exact h.pending id v hv
  · rw [ZJug.mem_get_rep_del, h.needed]
    grind
  · simp only [hneeds']
    grind

/-! ### Transactions -/

/-- A new transaction is excluded unless a block needs it, and its inputs are entered. -/
theorem addRawTx (h : c.Bookkeeping) {ready : List Digest}
    (hc' : c.addRawTx raw = some (ready, c')) : c'.Bookkeeping := by
  obtain ⟨hfresh, height, -, excludedTxs, rfl, hready⟩ := addRawTx_eq_some hc'
  have hid : ∀ txId raw' heardAt, (c.rawTxs.put raw.id (raw, height)).get txId
      = some (raw', heardAt) → raw'.id = txId := by
    intro txId raw' heardAt hget
    rw [get_put] at hget
    split at hget
    · rename_i htx
      cases hget
      exact htx.symm
    · exact h.id txId raw' heardAt hget
  have hspent : ∀ nam txId,
      txId ∈ ZJug.get (raw.inputNames.rep (fun nname sb => ZJug.put sb nname raw.id) c.spentBy) nam ↔
      ∃ raw' heardAt, (c.rawTxs.put raw.id (raw, height)).get txId = some (raw', heardAt) ∧
        nam ∈ raw'.inputNames := by
    intro nam txId
    rw [ZJug.mem_get_rep_put, h.spent]
    by_cases htx : txId = raw.id
    · subst htx
      simp [hfresh]
    · simp [htx]
  have hhas : ∀ txId, (c.rawTxs.put raw.id (raw, height)).has txId ↔
      c.rawTxs.has txId ∨ txId = raw.id := by
    intro txId
    by_cases htx : txId = raw.id <;> simp [has, htx]
  refine ⟨h.digest, h.pending, hid, h.needed, h.noEmpty, fun txId => ?_, hspent⟩
  rw [hhas]
  -- No block needs the transaction and it is excluded, or one does and it is not.
  rcases hready with ⟨hbnb, -, rfl⟩ | ⟨hbnb, rfl, -⟩
  · have hfree : ∀ blockId, ¬ c.Needs blockId raw.id := by
      intro blockId hneeds
      rw [← h.needed, hbnb] at hneeds
      exact ZSet.not_mem_empty _ hneeds
    rw [ZSet.mem_put, h.excluded]
    constructor
    · rintro (rfl | ⟨hraw, hnone⟩)
      · exact ⟨.inr rfl, hfree⟩
      · exact ⟨.inl hraw, hnone⟩
    · rintro ⟨hraw | rfl, hnone⟩
      · exact .inr ⟨hraw, hnone⟩
      · exact .inl rfl
  · rw [h.excluded]
    constructor
    · rintro ⟨hraw, hnone⟩
      exact ⟨.inl hraw, hnone⟩
    · rintro ⟨hraw | rfl, hnone⟩
      · exact ⟨hraw, hnone⟩
      · refine absurd (ZSet.eq_empty_iff.2 fun blockId hmem => ?_) hbnb
        exact hnone blockId ((h.needed _ _).1 hmem)

/-- A transaction that no block needs is dropped, with its inputs. -/
theorem dropTx (h : c.Bookkeeping) (hc' : c.dropTx txId = some c') : c'.Bookkeeping := by
  obtain ⟨hfree, raw, heardAt, hget, rfl⟩ := dropTx_eq_some hc'
  have hraw : raw.id = txId := h.id txId raw heardAt hget
  rw [hraw]
  refine ⟨h.digest, h.pending, fun id raw' heard hget' => ?_, h.needed, h.noEmpty, fun id => ?_,
    fun nam id => ?_⟩
  · dsimp only at hget'
    rw [get_del] at hget'
    split at hget'
    · cases hget'
    · exact h.id id raw' heard hget'
  · show id ∈ c.excludedTxs.del txId ↔ _
    rw [ZSet.mem_del, h.excluded]
    by_cases hid : id = txId
    · simp [has, hid]
    · simp only [has, get_del, hid, if_false, ne_eq, not_false_eq_true, and_true]
      exact Iff.rfl
  · dsimp only
    rw [ZJug.mem_get_rep_del, h.spent]
    by_cases hid : id = txId
    · subst hid
      simp [hget]
    · simp [hid]

theorem garbageCollect (h : c.Bookkeeping) {retain : Option Nat}
    (hc' : c.garbageCollect retain = some c') : c'.Bookkeeping :=
  garbageCollect_invariant Bookkeeping (fun _ _ _ hstep hb => hb.rejectPendingBlock hstep)
    (fun _ _ _ hstep hb => hb.dropTx hstep) hc' h

theorem updateHeaviest (h : c.Bookkeeping) (hc' : c.updateHeaviest pag = some c') :
    c'.Bookkeeping := by
  rw [frame_updateHeaviest hc']
  exact { h with }

end Bookkeeping

end State

/-! ### Sequences of moves -/

/-- One move of the mempool: an arm that changes a block or a transaction, or `update-heaviest`,
without which no height is known to the others. `accept-block` is taken for any page, whether its
transactions are known or not. -/
inductive Move : State → State → Prop where
  | addRawTx {c c' : State} {raw : RawTx} {ready : List Digest}
      (h : c.addRawTx raw = some (ready, c')) : Move c c'
  | addPendingBlock {c c' : State} {pag : Page} {missing : List Digest}
      (h : c.addPendingBlock pag = some (missing, c')) : Move c c'
  | acceptBlock {c c' : State} {pag : Page} (h : c.acceptBlock pag = some c') : Move c c'
  | acceptPendingBlock {c c' : State} {blockId : Digest}
      (h : c.acceptPendingBlock blockId = some c') : Move c c'
  | rejectPendingBlock {c c' : State} {blockId : Digest}
      (h : c.rejectPendingBlock blockId = some c') : Move c c'
  | dropTx {c c' : State} {txId : Digest} (h : c.dropTx txId = some c') : Move c c'
  | garbageCollect {c c' : State} {retain : Option Nat} (h : c.garbageCollect retain = some c') :
      Move c c'
  | updateHeaviest {c c' : State} {pag : Page} (h : c.updateHeaviest pag = some c') : Move c c'

/-- A sequence of moves. -/
abbrev Moves : State → State → Prop := Relation.ReflTransGen Move

theorem State.Bookkeeping.move {c c' : State} (h : c.Bookkeeping) (hmove : Move c c') :
    c'.Bookkeeping := by
  cases hmove with
  | addRawTx hc' => exact h.addRawTx hc'
  | addPendingBlock hc' => exact h.addPendingBlock hc'
  | acceptBlock hc' => exact h.acceptBlock hc'
  | acceptPendingBlock hc' => exact h.acceptPendingBlock hc'
  | rejectPendingBlock hc' => exact h.rejectPendingBlock hc'
  | dropTx hc' => exact h.dropTx hc'
  | garbageCollect hc' => exact h.garbageCollect hc'
  | updateHeaviest hc' => exact h.updateHeaviest hc'

theorem State.Bookkeeping.moves {c c' : State} (h : c.Bookkeeping) (hmoves : Moves c c') :
    c'.Bookkeeping := by
  induction hmoves with
  | refl => exact h
  | tail _ hmove ih => exact ih.move hmove

/-- From the empty state, the books are right after every sequence of moves, and `apt` has nothing
to say. -/
theorem bookkeeping_of_moves {c : State} (h : Moves default c) : c.Bookkeeping ∧ c.apt = none := by
  have hbooks := State.Bookkeeping.init.moves h
  exact ⟨hbooks, hbooks.apt_eq_none⟩

/-! ### Runs of a node -/

theorem State.Bookkeeping.acceptPage {bc : BlockchainConstants} {c c' : State} {pag : Page}
    {acc : TxAcc} (h : c.Bookkeeping) (hc' : c.acceptPage bc pag acc = some c') :
    c'.Bookkeeping := by
  obtain ⟨notes, start, times, target, -, -, -, -, hc'⟩ := acceptPage_eq_some_iff.1 hc'
  have hentries : (c.withEntries pag acc notes start times target).Bookkeeping := { h with }
  split at hc'
  · exact hentries.acceptPendingBlock hc'
  · exact hentries.acceptBlock hc'

section Runs

variable [Pow] [Cheetah] {cfg : Config} {c c' : State}

theorem State.Bookkeeping.step (h : c.Bookkeeping) (hstep : Step cfg c c') : c'.Bookkeeping := by
  cases hstep with
  | addRawTx _ hc' => exact h.addRawTx hc'
  | addPendingBlock _ hc' => exact h.addPendingBlock hc'
  | rejectPendingBlock hc' => exact h.rejectPendingBlock hc'
  | acceptGenesis _ hc' | acceptPage _ _ hc' => exact h.acceptPage hc'
  | updateHeaviest _ hc' => exact h.updateHeaviest hc'
  | garbageCollect hc' => exact h.garbageCollect hc'

theorem State.Bookkeeping.of_reachable (h : Reachable cfg c) : c.Bookkeeping := by
  induction h with
  | init => exact .init
  | step _ hstep ih => exact ih.step hstep

end Runs

end Mempool

section Waiting

local instance waitingTip5 : Tip5 := firstTip5

/-- A state that excludes a transaction it does not have. -/
def strayState : State := { (default : State) with excludedTxs := ZSet.put ∅ (.ofNat 20) }

/-- `apt` reports the transaction, and `repair` crashes on the report. -/
theorem not_repairs_stray : strayState.apt = some .extraExcludedTxs ∧ ¬ strayState.Repairs := by
  have hapt : strayState.apt = some .extraExcludedTxs := by decide +kernel
  refine ⟨hapt, fun ⟨n, c', hrun, _⟩ => ?_⟩
  rw [State.checkAndRepair_eq_none hapt] at hrun
  cases hrun

/-- A transaction that spends one note. -/
def waitingRaw : RawTx :=
  .v1 ⟨.ofNat 20, put ∅ ⟨.ofNat 0, .ofNat 0⟩ (.s0 ⟨∅, ∅, 0⟩)⟩

/-- A page with that transaction and one that is not known. -/
def waitingPage : Page :=
  { firstPage with txIds := ZSet.gas ∅ [.ofNat 20, .ofNat 21] }

/-- The genesis page is accepted, a transaction comes in, and then a page with it. -/
def waitingState : Option State := do
  let c ← (default : State).acceptBlock genesisPage
  let c ← c.updateHeaviest genesisPage
  let (_, c) ← c.addRawTx waitingRaw
  let (_, c) ← c.addPendingBlock waitingPage
  return c

theorem moves_waitingState {c : State} (h : waitingState = some c) : Moves default c := by
  simp only [waitingState, bind_eq_some, pure_eq_some, Prod.exists] at h
  obtain ⟨c1, h1, c2, h2, _, c3, h3, _, c4, h4, rfl⟩ := h
  exact .tail (.tail (.tail (.tail .refl (.acceptBlock h1)) (.updateHeaviest h2)) (.addRawTx h3))
    (.addPendingBlock h4)

theorem bookkeeping_of_moves_waiting : ∃ c, waitingState = some c ∧ Moves default c ∧
    c.Bookkeeping ∧ c.apt = none := by
  have hsome : waitingState.isSome = true := by decide +kernel
  obtain ⟨c, hc⟩ := Option.isSome_iff_exists.1 hsome
  have hmoves := moves_waitingState hc
  exact ⟨c, hc, hmoves, bookkeeping_of_moves hmoves⟩

end Waiting

end Nockchain.Consensus
