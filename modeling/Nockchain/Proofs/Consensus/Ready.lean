import Nockchain.Proofs.Consensus.Mempool

/-!
# `Nockchain.Proofs.Consensus.Ready`: when a pending block is ready

A block waits in `pending-blocks` for the transactions that `raw-txs` does not
have. `add-raw-tx` looks for the blocks that wait for a transaction in
`blocks-needed-by`, so that it finds them all only where this index is exact:
`apt` does not see a block that is missing there (`not_reported_unindexed`).
With the books in order (`Bookkeeping`), a pending block is reported when the
last of its transactions comes in, and not again while it is pending
(`ready_of_moves`).
-/

set_option autoImplicit false

namespace Nockchain.Consensus

open Lib TxEngine ZSet Option

section Ready

variable [Tip5]

variable {pag : Page} {ready : List Digest}

namespace State

/-- A transaction of a page that is not there. -/
def Missing (c : State) (pag : Page) (txId : Digest) : Prop :=
  txId ∈ pag.txIds ∧ c.rawTxs.has txId = false

variable {txId blockId : Digest}

/-- A loop that puts the missing transactions of a page into a set. -/
theorem mem_rep_missing {c : State} {all : ZSet Digest} :
    txId ∈ pag.txIds.rep (fun txId all => if c.rawTxs.has txId then all else all.put txId) all ↔
      txId ∈ all ∨ c.Missing pag txId := by
  rw [rep_collect (P := (txId ∈ ·)) (q := fun x => x = txId ∧ c.rawTxs.has x = false)]
  · refine or_congr_right ⟨?_, fun ⟨hmem, hraw⟩ => ⟨txId, hmem, rfl, hraw⟩⟩
    rintro ⟨_, hmem, rfl, hraw⟩
    exact ⟨hmem, hraw⟩
  intro x all
  split
  · rename_i hraw
    simp [hraw]
  · rename_i hraw
    rw [or_comm, eq_comm, Bool.eq_false_of_not_eq_true hraw]
    simp

theorem mem_needed {c : State} : txId ∈ c.needed pag ↔ c.Missing pag txId := by
  rw [needed, mem_rep_missing]
  simp [not_mem_empty]

/-- `missing-tx-ids` are the missing transactions of the pending blocks. -/
theorem mem_missingTxIds {c : State} : txId ∈ c.missingTxIds ↔
    ∃ blockId pag heardAt, c.pendingBlocks.get blockId = some (pag, heardAt) ∧
      c.Missing pag txId := by
  rw [missingTxIds, mem_tap, ZMap.rep_collect (P := (txId ∈ ·))
    (q := fun x => c.Missing x.2.1 txId)]
  · simp [not_mem_empty]
  · exact fun x all => mem_rep_missing

/-! ### The blocks that `add-raw-tx` reports -/

/-- What `add-raw-tx` returns: the transaction is entered, and the ready blocks are those of the
blocks that need it which are pending with nothing missing. -/
theorem ready_addRawTx {c c' : State} {raw : RawTx} (h : c.addRawTx raw = some (ready, c')) :
    c.rawTxs.has raw.id = false ∧ c'.pendingBlocks = c.pendingBlocks ∧
      (∀ txId, c'.rawTxs.has txId = false ↔ c.rawTxs.has txId = false ∧ txId ≠ raw.id) ∧
      ready.Nodup ∧ ∀ blockId, blockId ∈ ready ↔ blockId ∈ ZJug.get c.blocksNeededBy raw.id ∧
        ∃ pag heardAt, c.pendingBlocks.get blockId = some (pag, heardAt) ∧
          ∀ txId, ¬ c'.Missing pag txId := by
  have hpending := pendingBlocks_addRawTx h
  obtain ⟨hfresh, height, -, excludedTxs, hc', hready⟩ := addRawTx_eq_some h
  have hhas : ∀ txId, c'.rawTxs.has txId = false ↔ c.rawTxs.has txId = false ∧ txId ≠ raw.id := by
    intro txId
    by_cases htx : txId = raw.id <;> simp [hc', ZMap.has, htx]
  rcases hready with ⟨hbnb, rfl, -⟩ | ⟨-, -, hready⟩
  · refine ⟨ZMap.has_eq_false.2 hfresh, hpending, hhas, .nil, fun blockId => ?_⟩
    rw [hbnb]
    simp [not_mem_empty]
  -- The gate lists the pending blocks with nothing missing.
  let test (blockId : Digest) : Bool :=
    (c.pendingBlocks.get blockId).any fun v => decide (c'.needed v.1 = ∅)
  rw [rep_congr (g := fun blockId ready => if test blockId then blockId :: ready else ready)]
    at hready
  · obtain ⟨hnodup, hmem⟩ := rep_filter (ZJug.get c.blocksNeededBy raw.id) test
    rw [← hready] at hnodup hmem
    refine ⟨ZMap.has_eq_false.2 hfresh, hpending, hhas, hnodup,
      fun blockId => (hmem blockId).trans (and_congr_right fun _ => ?_)⟩
    simp [test, any_eq_true, eq_empty_iff, mem_needed]
  · intro blockId _ ready
    split
    · rename_i hnone
      simp [test, hnone]
    · rename_i hsome
      simp [test, hsome]

namespace Bookkeeping

variable {c c' : State}

/-- A pending block under a digest is the only block there. -/
theorem page_eq (h : c.Bookkeeping) {page : Page} {heardAt : Nat}
    (hget : c.pendingBlocks.get blockId = some (pag, heardAt)) (hpage : c.BlockAt blockId page) :
    page = pag := by
  rcases hpage with hpage | ⟨heard, hpage⟩
  · rw [h.pending blockId _ hget] at hpage
    cases hpage
  · exact congrArg Prod.fst (mem_unique hpage hget)

/-- The reported blocks are the pending ones whose last missing transaction has come in. -/
theorem mem_ready (h : c.Bookkeeping) {raw : RawTx}
    (hadd : c.addRawTx raw = some (ready, c')) (blockId : Digest) :
    blockId ∈ ready ↔ ∃ pag heardAt, c.pendingBlocks.get blockId = some (pag, heardAt) ∧
      ∀ txId, c.Missing pag txId ↔ txId = raw.id := by
  obtain ⟨hfresh, -, hhas, -, hready⟩ := ready_addRawTx hadd
  rw [hready, h.needed]
  constructor
  · rintro ⟨⟨page, hpage, hmem⟩, pag, heardAt, hget, hnone⟩
    rw [h.page_eq hget hpage] at hmem
    refine ⟨pag, heardAt, hget, fun txId => ⟨fun hmissing => ?_, ?_⟩⟩
    · by_contra hne
      exact hnone txId ⟨hmissing.1, (hhas txId).2 ⟨hmissing.2, hne⟩⟩
    · rintro rfl
      exact ⟨hmem, hfresh⟩
  · rintro ⟨pag, heardAt, hget, hlast⟩
    refine ⟨⟨pag, .inr ⟨heardAt, hget⟩, ((hlast raw.id).2 rfl).1⟩, pag, heardAt, hget, ?_⟩
    intro txId hmissing
    obtain ⟨hraw, hne⟩ := (hhas txId).1 hmissing.2
    exact hne ((hlast txId).1 ⟨hmissing.1, hraw⟩)

end Bookkeeping

/-! ### What a move leaves of the transactions -/

/-- `c'` is `c` with some transactions and some pending blocks gone, but for the transactions of
the blocks that are left. -/
structure Sheds (c c' : State) : Prop where
  blocks : c'.blocks = c.blocks
  pending : PendingLe c' c
  rawTxs : ∀ txId, c.rawTxs.has txId = true →
    c'.rawTxs.has txId = true ∨ ∀ blockId, ¬ c'.Needs blockId txId

namespace Sheds

variable {c c' c'' : State}

theorem refl (c : State) : Sheds c c := ⟨rfl, fun _ _ hget => hget, fun _ hraw => .inl hraw⟩

theorem needs (h : Sheds c c') (hneeds : c'.Needs blockId txId) : c.Needs blockId txId := by
  obtain ⟨pag, hpag | ⟨heardAt, hpag⟩, hmem⟩ := hneeds
  · exact ⟨pag, .inl (h.blocks ▸ hpag), hmem⟩
  · exact ⟨pag, .inr ⟨heardAt, h.pending _ _ hpag⟩, hmem⟩

theorem trans (h : Sheds c c') (h' : Sheds c' c'') : Sheds c c'' where
  blocks := h'.blocks.trans h.blocks
  pending := h'.pending.trans h.pending
  rawTxs txId hraw := by
    rcases h.rawTxs txId hraw with hraw' | hfree
    · exact h'.rawTxs txId hraw'
    · exact .inr fun blockId hneeds => hfree blockId (h'.needs hneeds)

theorem of_rejectPendingBlock (h : c.rejectPendingBlock blockId = some c') : Sheds c c' := by
  obtain ⟨-, pag, heardAt, -, rfl⟩ := rejectPendingBlock_eq_some h
  exact ⟨rfl, .of_del rfl, fun txId hraw => .inl hraw⟩

theorem of_dropTx (hbooks : c.Bookkeeping) (h : c.dropTx txId = some c') : Sheds c c' := by
  obtain ⟨hfree, raw, heardAt, -, rfl⟩ := dropTx_eq_some h
  refine ⟨rfl, fun _ _ hget => hget, fun id hraw => ?_⟩
  by_cases hid : id = txId
  · subst hid
    refine .inr fun blockId hneeds => ?_
    rw [hbooks.has_iff.2 ⟨blockId, hneeds⟩] at hfree
    cases hfree
  · left
    rwa [ZMap.has, ZMap.get_del, if_neg hid]

theorem of_garbageCollect (hbooks : c.Bookkeeping) {retain : Option Nat}
    (h : c.garbageCollect retain = some c') : Sheds c c' :=
  (garbageCollect_invariant (fun c' => Sheds c c' ∧ c'.Bookkeeping)
    (fun _ _ _ hstep hb => ⟨hb.1.trans (of_rejectPendingBlock hstep), hb.2.rejectPendingBlock hstep⟩)
    (fun _ _ _ hstep hb => ⟨hb.1.trans (of_dropTx hb.2 hstep), hb.2.dropTx hstep⟩)
    h ⟨refl c, hbooks⟩).1

end Sheds

end State

open State

/-- A block that stays pending stays the same, and waits for no other transactions than before. -/
def Waits (c c' : State) (blockId : Digest) : Prop :=
  ∀ v v', c.pendingBlocks.get blockId = some v → c'.pendingBlocks.get blockId = some v' →
    v' = v ∧ ∀ txId, c'.Missing v.1 txId → c.Missing v.1 txId

section Waits

variable {c c' : State} {blockId : Digest}

theorem waits_of_pendingLe (hpending : PendingLe c' c) (hraw : ∀ txId, c.rawTxs.has txId →
      c'.rawTxs.has txId ∨ ∀ blockId, ¬ c'.Needs blockId txId) : Waits c c' blockId := by
  rintro v ⟨pag, heardAt⟩ hget hget'
  obtain rfl : (pag, heardAt) = v := mem_unique (hpending _ _ hget') hget
  refine ⟨rfl, fun txId ⟨hmem, hnone⟩ => ⟨hmem, ?_⟩⟩
  by_contra hhas
  rcases hraw txId (Bool.eq_true_of_not_eq_false hhas) with hhas' | hfree
  · rw [hnone] at hhas'
    cases hhas'
  · exact hfree blockId ⟨pag, .inr ⟨heardAt, hget'⟩, hmem⟩

theorem State.Sheds.waits (h : Sheds c c') : Waits c c' blockId :=
  waits_of_pendingLe h.pending h.rawTxs

theorem waits_addRawTx {raw : RawTx}
    (h : c.addRawTx raw = some (ready, c')) : Waits c c' blockId := by
  obtain ⟨-, hpending, hhas, -⟩ := ready_addRawTx h
  refine waits_of_pendingLe (fun x v hget => hpending ▸ hget) fun txId hraw => .inl ?_
  by_contra hnone
  have hold := ((hhas txId).1 (Bool.eq_false_of_not_eq_true hnone)).1
  rw [hraw] at hold
  cases hold

theorem waits_addPendingBlock {missing : List Digest}
    (h : c.addPendingBlock pag = some (missing, c')) : Waits c c' blockId := by
  intro v v' hget hget'
  obtain ⟨-, hnone, ⟨-, rfl⟩ | ⟨-, -, height, rfl⟩⟩ := addPendingBlock_eq_some h
  · exact ⟨mem_unique hget' hget, fun _ hmissing => hmissing⟩
  rw [rep_needTx] at hget' ⊢
  have hne : blockId ≠ pag.digest := by
    rintro rfl
    rw [hnone] at hget
    cases hget
  rw [ZMap.get_put, if_neg hne] at hget'
  exact ⟨mem_unique hget' hget, fun _ hmissing => hmissing⟩

theorem waits_acceptBlock (h : c.acceptBlock pag = some c') : Waits c c' blockId := by
  obtain ⟨-, -, rfl⟩ := acceptBlock_eq_some h
  rw [rep_needTx]
  exact waits_of_pendingLe (fun _ _ hget => hget) fun _ hraw => .inl hraw

theorem waits_acceptPendingBlock {id : Digest} (h : c.acceptPendingBlock id = some c') :
    Waits c c' blockId := by
  obtain ⟨-, pag, heardAt, -, rfl⟩ := acceptPendingBlock_eq_some h
  exact waits_of_pendingLe (.of_del rfl) fun _ hraw => .inl hraw

theorem waits_updateHeaviest (h : c.updateHeaviest pag = some c') : Waits c c' blockId := by
  rw [frame_updateHeaviest h]
  exact waits_of_pendingLe (fun _ _ hget => hget) fun _ hraw => .inl hraw

theorem waits_of_move (hbooks : c.Bookkeeping) (h : Move c c') : Waits c c' blockId := by
  cases h with
  | addRawTx h => exact waits_addRawTx h
  | addPendingBlock h => exact waits_addPendingBlock h
  | acceptBlock h => exact waits_acceptBlock h
  | acceptPendingBlock h => exact waits_acceptPendingBlock h
  | rejectPendingBlock h => exact (Sheds.of_rejectPendingBlock h).waits
  | dropTx h => exact (Sheds.of_dropTx hbooks h).waits
  | garbageCollect h => exact (Sheds.of_garbageCollect hbooks h).waits
  | updateHeaviest h => exact waits_updateHeaviest h

end Waits

/-- A sequence of moves during which a block is pending. -/
abbrev PendingMoves (blockId : Digest) : State → State → Prop :=
  Relation.ReflTransGen fun c c' => Move c c' ∧ c'.pendingBlocks.has blockId = true

theorem PendingMoves.moves {blockId : Digest} {c c' : State} (h : PendingMoves blockId c c') :
    Moves c c' := by
  induction h with
  | refl => exact .refl
  | tail _ hmove ih => exact ih.tail hmove.1

/-- A block that has all its transactions keeps them while it is pending. -/
theorem not_missing_of_pendingMoves {c c' : State} {blockId : Digest} (hbooks : c.Bookkeeping)
    (h : PendingMoves blockId c c') {v : Page × Nat} (hget : c.pendingBlocks.get blockId = some v)
    (hnone : ∀ txId, ¬ c.Missing v.1 txId) :
    c'.pendingBlocks.get blockId = some v ∧ ∀ txId, ¬ c'.Missing v.1 txId := by
  induction h with
  | refl => exact ⟨hget, hnone⟩
  | @tail mid c' hmid hmove ih =>
    obtain ⟨v', hv'⟩ := ZMap.has_eq_true.1 hmove.2
    obtain ⟨rfl, hmissing⟩ := waits_of_move (hbooks.moves (PendingMoves.moves hmid)) hmove.1
      v v' ih.1 hv'
    exact ⟨hv', fun txId h => ih.2 txId (hmissing txId h)⟩

end Ready

/-- In every sequence of moves from a state whose books are in order: `missing-tx-ids` are the
missing transactions of the pending blocks, and `add-raw-tx` reports, each once, the pending blocks
whose last missing transaction it adds. A block that has been reported is not reported again while
it is pending. -/
theorem ready_of_moves [Tip5] {c₀ c : State} (hbooks : c₀.Bookkeeping) (hmoves : Moves c₀ c) :
    (∀ txId, txId ∈ c.missingTxIds ↔ ∃ blockId pag heardAt,
      c.pendingBlocks.get blockId = some (pag, heardAt) ∧ c.Missing pag txId) ∧
    ∀ raw ready c', c.addRawTx raw = some (ready, c') → ready.Nodup ∧
      (∀ blockId, blockId ∈ ready ↔ ∃ pag heardAt,
        c.pendingBlocks.get blockId = some (pag, heardAt) ∧
          ∀ txId, c.Missing pag txId ↔ txId = raw.id) ∧
      ∀ blockId ∈ ready, ∀ d, PendingMoves blockId c' d →
        ∀ raw' ready' d', d.addRawTx raw' = some (ready', d') → blockId ∉ ready' := by
  have hc := hbooks.moves hmoves
  refine ⟨fun txId => State.mem_missingTxIds, fun raw ready c' hadd => ?_⟩
  obtain ⟨-, hpending, -, hnodup, hready⟩ := State.ready_addRawTx hadd
  refine ⟨hnodup, hc.mem_ready hadd, fun blockId hmem d hd raw' ready' d' hadd' hmem' => ?_⟩
  obtain ⟨-, pag, heardAt, hget, hnone⟩ := (hready blockId).1 hmem
  have hc' := hc.addRawTx hadd
  obtain ⟨hget', hnone'⟩ := not_missing_of_pendingMoves hc' hd (hpending ▸ hget) hnone
  obtain ⟨pag', heardAt', hget'', hlast⟩ :=
    ((hc'.moves (PendingMoves.moves hd)).mem_ready hadd' blockId).1 hmem'
  cases hget'.symm.trans hget''
  exact hnone' raw'.id ((hlast raw'.id).2 rfl)

section Unindexed

local instance unindexedTip5 : Tip5 := firstTip5

/-- A page that waits for one transaction. -/
def unindexedPage : Page := { firstPage with txIds := put ∅ (.ofNat 20) }

/-- A state in which the page is pending but stands in no index. -/
def unindexedState : State :=
  { (default : State) with
    pendingBlocks := ZMap.put ∅ (.ofNat 100) (unindexedPage, 0)
    blocks := ZMap.put ∅ genesisPage.digest genesisPage
    heaviestBlock := some genesisPage.digest }

/-- `apt` finds nothing wrong with the state, and yet the transaction that the page waits for
comes in and the page is not reported. -/
theorem not_reported_unindexed : unindexedState.apt = none ∧
    (∀ txId, unindexedState.Missing unindexedPage txId ↔ txId = waitingRaw.id) ∧
    ∃ c', unindexedState.addRawTx waitingRaw = some ([], c') := by
  refine ⟨by decide +kernel, fun txId => ?_, ?_⟩
  · rw [State.Missing, show unindexedPage.txIds = put ∅ waitingRaw.id from rfl, mem_put]
    simp only [not_mem_empty, or_false, and_iff_left_iff_imp]
    intro _
    rfl
  · obtain ⟨⟨ready, c'⟩, hc'⟩ := isSome_iff_exists.1
      (show (unindexedState.addRawTx waitingRaw).isSome = true by decide +kernel)
    have hready : (unindexedState.addRawTx waitingRaw).map Prod.fst = some [] := by decide +kernel
    rw [hc'] at hready
    obtain rfl : ready = [] := some.inj hready
    exact ⟨c', hc'⟩

end Unindexed

section Waited

local instance waitedTip5 : Tip5 := firstTip5

/-- The transaction that the waiting page waits for. -/
def waitedRaw : RawTx := .v1 ⟨.ofNat 21, ZMap.put ∅ ⟨.ofNat 0, .ofNat 1⟩ (.s0 ⟨∅, ∅, 0⟩)⟩

theorem ready_of_moves_waiting : ∃ c c', waitingState = some c ∧
    c.addRawTx waitedRaw = some ([.ofNat 100], c') ∧
      ∀ d, PendingMoves (.ofNat 100) c' d → ∀ raw' ready' d',
        d.addRawTx raw' = some (ready', d') → Digest.ofNat 100 ∉ ready' := by
  have hsome : waitingState.isSome = true := by decide +kernel
  obtain ⟨c, hc⟩ := isSome_iff_exists.1 hsome
  have hready : (waitingState.bind (·.addRawTx waitedRaw)).map Prod.fst = some [.ofNat 100] := by
    decide +kernel
  rw [hc] at hready
  obtain ⟨⟨ready, c'⟩, hadd, hready⟩ := map_eq_some_iff.1 hready
  obtain rfl : ready = [.ofNat 100] := hready
  refine ⟨c, c', hc, hadd, ?_⟩
  exact ((ready_of_moves .init (moves_waitingState hc)).2 waitedRaw _ c' hadd).2.2 _
    (List.mem_singleton.2 rfl)

end Waited

end Nockchain.Consensus
