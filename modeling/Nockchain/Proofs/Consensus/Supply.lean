import Nockchain.Proofs.Consensus.Arms
import Nockchain.Proofs.Consensus.Coinbase

/-!
# `Nockchain.Proofs.Consensus.Supply`: the supply grows by the emission alone

A page that is accepted leaves its block a balance worth that of its parent and
the emission at its height. The transactions move value between notes and fees
(`balanceTransfer_spec`), the coinbase split is the emission and those fees,
and the coinbase notes enter under names that no note of the balance has.

The last point is an invariant of all runs (`Ledger`): a coinbase name has the
parent of its page as its source, and the balance of a block holds only coinbase
names whose source was accepted before the block.
-/

set_option autoImplicit false

namespace Nockchain.Consensus

open Lib TxEngine State Balance Option

section Supply

variable [Tip5]

/-! ### The transactions of a page -/

variable {acc : TxAcc} {pag : Page}

section Transfer

variable [Cheetah]

variable {bc : BlockchainConstants}

/-- The loop of `validate-page-with-txs` is a run of `process:tx-acc`. -/
theorem balanceTransfer_eq_some {raws : List (Option RawTx)} {acc' : TxAcc} :
    balanceTransfer bc raws acc = some (some acc') ↔
      Run (fun f raw f' => f.process bc raw = .ok f') acc raws.reduceOption acc' := by
  induction raws generalizing acc with
  | nil =>
    rw [balanceTransfer, some.injEq, some.injEq]
    exact ⟨fun h => h ▸ .nil acc, fun h => by cases h; rfl⟩
  | cons raw raws ih =>
    cases raw with
    | none => exact ih
    | some raw =>
      rw [balanceTransfer]
      cases hprocess : acc.process bc raw with
      | error t =>
        refine ⟨fun h => by simp [bind_eq_some_iff] at h, fun h => ?_⟩
        cases h with
        | cons hstep _ => cases hprocess.symm.trans hstep
      | ok next =>
        refine ih.trans ⟨fun h => .cons hprocess h, fun h => ?_⟩
        cases h with
        | cons hstep hrest => exact Except.ok.inj (hprocess.symm.trans hstep) ▸ hrest

/-- The accumulator after the transactions of a page: worth what it was, with outputs as its only
new notes, at the same height. -/
theorem balanceTransfer_spec {raws : List (Option RawTx)}
    {acc' : TxAcc} (h : balanceTransfer bc raws acc = some (some acc')) :
    acc'.worth = acc.worth ∧ ∀ nam note, acc'.balance.get nam = some note →
        acc.balance.get nam = some note ∨ ∃ p, nam.FromSource ⟨p, false⟩ := by
  have hrun := balanceTransfer_eq_some.1 h
  refine ⟨hrun.invariant (fun f => f.worth = acc.worth) ?_ rfl, hrun.invariant (fun f =>
    ∀ nam note, f.balance.get nam = some note →
      acc.balance.get nam = some note ∨ ∃ p, nam.FromSource ⟨p, false⟩) ?_ ?_⟩
  · intro f raw f' _ hstep hf
    exact (TxAcc.worth_process hstep).trans hf
  · intro f raw f' _ hstep hf nam note hget
    rcases TxAcc.source_of_process hstep hget with hget | hout
    · exact hf nam note hget
    · exact .inr hout
  · exact fun nam note hget => .inl hget

/-- What `validate-page-with-txs` has checked of a page. -/
theorem validatePageWithTxs_eq_ok {c : State} (h : c.validatePageWithTxs bc pag = some (.ok acc)) :
    balanceTransfer bc (pag.txIds.run c.getRawTx).tap
        (TxAcc.new (c.balance.get pag.parent) pag.height) = some (some acc) ∧
      ∃ emission, emissionCalc pag.height = some emission ∧
        emission + acc.fees = pag.coinbase.coins.sum := by
  simp only [validatePageWithTxs, bind_eq_some] at h
  obtain ⟨sized, -, h⟩ := h
  cases sized with
  | false => simp at h
  | true =>
    simp only [Bool.not_true, Bool.false_eq_true, if_false, bind_eq_some] at h
    obtain ⟨transfer, htransfer, h⟩ := h
    cases transfer with
    | none => simp at h
    | some acc' =>
      simp only [bind_eq_some] at h
      obtain ⟨emission, hemission, h⟩ := h
      split at h
      · simp at h
      rename_i hsplit
      cases h
      rw [not_not] at hsplit
      refine ⟨htransfer, emission, hemission, ?_⟩
      rw [hsplit]
      simpa using foldl_add_eq_sum' (fun n : Nat => n) pag.coinbase.coins 0

/-- The transactions of a page that is validated are there. -/
theorem getRawTx_of_validate {c : State}
    (h : c.validatePageWithTxs bc pag = some (.ok acc)) {txId : Digest} (htx : txId ∈ pag.txIds) :
    ∃ raw, c.getRawTx txId = some raw := by
  simp only [validatePageWithTxs, bind_eq_some] at h
  obtain ⟨sized, hsized, -⟩ := h
  simp only [checkSize, bind_eq_some] at hsized
  obtain ⟨pageSize, -, txsSize, htxs, -⟩ := hsized
  obtain ⟨b, b', hstep⟩ := (Run.of_foldlM htxs).exists_step (ZSet.mem_tap.2 htx)
  obtain ⟨raw, hraw, -⟩ := bind_eq_some.1 hstep
  exact ⟨raw, hraw⟩

end Transfer

/-! ### Entering the coinbase -/

/-- The coinbase notes on top of a balance. -/
def enterNotes (b : Balance) (notes : List Nnote) : Balance :=
  notes.foldl (fun b note => b.put note.name note) b

theorem foldl_zmip_put (bal : ZMap Digest Balance) (digest : Digest) (notes : List Nnote)
    (x : Digest) :
    ((notes.foldl (fun bal note => ZMip.put bal digest note.name note) bal).get x).getD ∅
      = if x = digest then enterNotes ((bal.get digest).getD ∅) notes else (bal.get x).getD ∅ := by
  induction notes generalizing bal with
  | nil =>
    by_cases hx : x = digest
    · simp [hx, enterNotes]
    · simp [hx]
  | cons note notes ih =>
    rw [List.foldl_cons, ih]
    by_cases hx : x = digest
    · simp [hx, ZMip.put, ZMap.gut, enterNotes]
    · simp [hx, ZMip.put]

variable {notes : List Nnote}

/-- Notes that enter under fresh and distinct names add their assets. -/
theorem total_enterNotes {b : Balance} (hnodup : (notes.map V1.Nnote.name).Nodup)
    (hfresh : ∀ note ∈ notes, b.get note.name = none) : total (enterNotes b notes)
      = total b + (notes.map V1.Nnote.assets).sum := by
  induction notes generalizing b with
  | nil => rfl
  | cons note notes ih =>
    rw [List.map_cons, List.nodup_cons] at hnodup
    have hput : total (b.put note.name note) = total b + note.assets :=
      ZMap.total_put V1.Nnote.assets note (hfresh note List.mem_cons_self)
    have hrest : ∀ other ∈ notes, (b.put note.name note).get other.name = none := by
      intro other hother
      have hne : other.name ≠ note.name := by
        intro heq
        exact hnodup.1 (heq ▸ List.mem_map_of_mem hother)
      rw [ZMap.get_put, if_neg hne]
      exact hfresh other (.tail _ hother)
    show total (enterNotes (b.put note.name note) notes) = _
    rw [ih hnodup.2 hrest, hput, List.map_cons, List.sum_cons, Nat.add_assoc]

theorem get_enterNotes {b : Balance} {nam : Nname} {note : Nnote}
    (h : (enterNotes b notes).get nam = some note) :
    b.get nam = some note ∨ note ∈ notes ∧ nam = note.name := by
  induction notes generalizing b with
  | nil => exact .inl h
  | cons first notes ih =>
    rcases ih h with hb | ⟨hmem, hnam⟩
    · rw [ZMap.get_put] at hb
      split at hb
      · rename_i hnam
        cases hb
        exact .inr ⟨(.head _), hnam⟩
      · exact .inl hb
    · exact .inr ⟨.tail _ hmem, hnam⟩

namespace State

/-- The balance of a block. -/
def balanceOf (c : State) (x : Digest) : Balance := (c.balance.get x).getD ∅

/-- The balance that a page leaves its block, where the block has none yet. -/
theorem enterBalance_get_digest {c : State} (hnone : c.balanceOf pag.digest = ∅) :
    ((c.enterBalance pag acc notes).get pag.digest).getD ∅ = enterNotes acc.balance notes := by
  rw [enterBalance, foldl_zmip_put, if_pos rfl]
  split
  · simp
  · rename_i hempty
    rw [not_not] at hempty
    rw [hempty]
    exact congrArg (enterNotes · notes) hnone

theorem enterBalance_get_ne {c : State} {x : Digest} (hx : x ≠ pag.digest) :
    ((c.enterBalance pag acc notes).get x).getD ∅ = c.balanceOf x := by
  rw [enterBalance, foldl_zmip_put, if_neg hx]
  split
  · simp [hx, balanceOf]
  · rfl

end State

/-! ### The invariant -/

/-- What holds of the balances in every run: only accepted blocks have one, and the coinbase names
in it come from blocks that were accepted before. -/
structure Ledger (c : State) : Prop where
  accepted : ∀ x, c.blocks.get x = none → c.balanceOf x = ∅
  source : ∀ x nam note q, (c.balanceOf x).get nam = some note → nam.FromSource ⟨q, true⟩ →
    q ≠ x ∧ c.blocks.has q = true
  pending : ∀ x pag heardAt, c.pendingBlocks.get x = some (pag, heardAt) →
    c.blocks.has pag.parent = true

namespace Ledger

variable {c c' : State}

theorem init : Ledger (default : State) where
  accepted _ _ := rfl
  source _ _ _ _ hget := by cases hget
  pending _ _ _ hget := by cases hget

/-- Arms that leave the chain alone, and add no pending block but one whose parent is there. -/
theorem of_chain (hc : Ledger c) (hchain : c'.chain = c.chain)
    (hpending : ∀ x pag heardAt, c'.pendingBlocks.get x = some (pag, heardAt) →
      c.pendingBlocks.get x = some (pag, heardAt) ∨ c.blocks.has pag.parent) : Ledger c' := by
  have hblocks : c'.blocks = c.blocks := congrArg State.Chain.blocks hchain
  have hbalance : c'.balance = c.balance := congrArg State.Chain.balance hchain
  constructor
  · intro x hx
    rw [balanceOf, hbalance]
    exact hc.accepted x (hblocks ▸ hx)
  · intro x nam note q hget hsource
    rw [balanceOf, hbalance] at hget
    rw [hblocks]
    exact hc.source x nam note q hget hsource
  · intro x pag heardAt hget
    rw [hblocks]
    rcases hpending x pag heardAt hget with hold | hparent
    · exact hc.pending x pag heardAt hold
    · exact hparent

/-- Accepting a page whose coinbase names have an accepted source, if it has any. -/
theorem accept {bc : BlockchainConstants} (hc : Ledger c) (h : State.AcceptedPage bc c pag acc c')
    (hacc : ∀ nam note q, acc.balance.get nam = some note → nam.FromSource ⟨q, true⟩ →
      c.blocks.has q) (hnotes : ∀ notes, coinbases bc pag = some notes → ∀ note ∈ notes, ∀ q,
      note.name.FromSource ⟨q, true⟩ → c.blocks.has q) : Ledger c' := by
  obtain ⟨notes, hcoinbases, hbalance⟩ := h.balance
  have hhas : ∀ q, c.blocks.has q → c'.blocks.has q := by
    intro q hq
    rw [h.blocks, ZMap.has, ZMap.get_put]
    split
    · rfl
    · exact hq
  have hnone : c.balanceOf pag.digest = ∅ := hc.accepted _ h.fresh
  have hof : ∀ x, c'.balanceOf x = if x = pag.digest then enterNotes acc.balance notes
      else c.balanceOf x := by
    intro x
    rw [balanceOf, hbalance]
    split
    · rename_i hx
      rw [hx, enterBalance_get_digest hnone]
    · rename_i hx
      rw [enterBalance_get_ne hx]
  constructor
  · intro x hx
    rw [h.blocks, ZMap.get_put] at hx
    split at hx
    · cases hx
    · rename_i hne
      rw [hof, if_neg hne]
      exact hc.accepted x hx
  · intro x nam note q hget hsource
    rw [hof] at hget
    split at hget
    · -- The new block is not its own ancestor: it was not accepted, the source was.
      rename_i hx
      have hq : c.blocks.has q := by
        rcases get_enterNotes hget with hold | ⟨hnew, rfl⟩
        · exact hacc nam note q hold hsource
        · exact hnotes notes hcoinbases note hnew q hsource
      refine ⟨?_, hhas q hq⟩
      rintro rfl
      rw [hx, ZMap.has, h.fresh] at hq
      cases hq
    · obtain ⟨hne, hq⟩ := hc.source x nam note q hget hsource
      exact ⟨hne, hhas q hq⟩
  · intro x pag' heardAt hget
    exact hhas _ (hc.pending x pag' heardAt (h.pending x _ hget))

/-- The coinbase names of the accumulator that a page is validated to are those of its parent. -/
theorem source_of_validate [Cheetah] (cf : CollisionFree) {bc : BlockchainConstants}
    (hc : Ledger c) (h : c.validatePageWithTxs bc pag = some (.ok acc)) :
    ∀ nam note q, acc.balance.get nam = some note → nam.FromSource ⟨q, true⟩ →
      q ≠ pag.parent ∧ c.blocks.has q := by
  intro nam note q hget hsource
  have htransfer := (validatePageWithTxs_eq_ok h).1
  rcases (balanceTransfer_spec htransfer).2 nam note hget with hparent | ⟨p, hout⟩
  · exact hc.source pag.parent nam note q hparent hsource
  · cases hsource.unique cf hout

end Ledger

section Runs

variable [Pow] [Cheetah] {cfg : Config} {c c' : State}

/-- Every arm keeps it: the notes of a coinbase have the parent of their block as source. -/
theorem Ledger.step (cf : CollisionFree) (hc : Ledger c) (h : Step cfg c c') : Ledger c' := by
  cases h.shift with
  | mempool hchain hpending =>
    exact hc.of_chain hchain fun x pag heardAt hget =>
      (hpending x pag heardAt hget).imp_right fun hheard => hheard.2.parent
  | @genesis pag btcHash heard haccepted =>
    have hsplit := (checkGenesis_eq_true heard).coinbase
    refine hc.accept haccepted (fun nam note q hget => ?_) ?_
    · cases hget
    intro notes hnotes note hnote
    rw [coinbases, hsplit] at hnotes
    simp only [bind_eq_some] at hnotes
    obtain ⟨-, -, hnotes⟩ := hnotes
    cases hnotes
    cases hnote
  | @page pag acc heard valid haccepted =>
    have hparent : c.blocks.has pag.parent := by
      rcases heard with heard | ⟨heardAt, hpending⟩
      · exact heard.parent
      · exact hc.pending _ _ _ hpending
    refine hc.accept haccepted
      (fun nam note q hget hsource => (hc.source_of_validate cf valid nam note q hget hsource).2)
      fun notes hnotes note hnote q hsource => ?_
    have heq := ((coinbases_spec cf hnotes).source note hnote).unique cf hsource
    cases heq
    exact hparent

theorem Ledger.of_reachable (cf : CollisionFree) (h : Reachable cfg c) : Ledger c := by
  induction h with
  | init => exact .init
  | step _ hstep ih => exact ih.step cf hstep

/-! ### Conservation -/

/-- The balance of an accepted block is worth that of its parent and the emission at its height. -/
theorem total_acceptPage (cf : CollisionFree) (hc : Reachable cfg c) {pag : Page} {acc : TxAcc}
    (hvalid : c.validatePageWithTxs cfg.bc pag = some (.ok acc))
    (h : c.acceptPage cfg.bc pag acc = some c') :
    ∃ emission, emissionCalc pag.height = some emission ∧ Balance.total (c'.balanceOf pag.digest)
        = Balance.total (c.balanceOf pag.parent) + emission := by
  have hledger := Ledger.of_reachable cf hc
  have haccepted := acceptedPage_of_eq_some h
  obtain ⟨htransfer, emission, hemission, hsplit⟩ := validatePageWithTxs_eq_ok hvalid
  obtain ⟨notes, hcoinbases, hbalance⟩ := haccepted.balance
  have hspec := coinbases_spec cf hcoinbases
  -- A coinbase name has the parent of the page as its source, and no name of the balance has.
  have hfresh : ∀ note ∈ notes, acc.balance.get note.name = none := by
    intro note hnote
    by_contra hsome
    obtain ⟨old, hold⟩ := ne_none_iff_exists'.1 hsome
    exact (hledger.source_of_validate cf hvalid _ _ _ hold (hspec.source note hnote)).1 rfl
  have hworth : total acc.balance + acc.fees = total (c.balanceOf pag.parent) :=
    (balanceTransfer_spec htransfer).1
  have hnew : total (c'.balanceOf pag.digest)
      = total acc.balance + pag.coinbase.coins.sum := by
    rw [balanceOf, hbalance,
      enterBalance_get_digest (hledger.accepted _ haccepted.fresh),
      total_enterNotes hspec.nodup hfresh, hspec.assets]
  exact ⟨emission, hemission, by omega⟩

end Runs

end Supply

/-! ### The first block of a chain -/

/-- A genesis page that costs little to hash. -/
def plainGenesis [Tip5] (digest target : Nat) : Page :=
  { digest := .ofNat digest, pow := none, parent := .ofNat 0, txIds := ∅, coinbase := .v0 ∅,
    timestamp := 0, epochCounter := 0, target := ⟨[target]⟩, accumulatedWork := ⟨[3]⟩, height := 0,
    msg := [] }

section FirstBlock

-- What the digest of the genesis page below hashes.
local instance firstTip5 : Tip5 :=
  tableTip5 [.atom 0, toNoun (Bignum.mk [0]), toNoun (Bignum.mk [3])]
    ([(0, 0), (4, 1), (2, 3), (0, 5), (0, 7), (0, 9), (0, 11), (0, 13), (0, 15)].map
      fun x => (.ofNat x.1, .ofNat x.2))

local instance firstPow : Pow :=
  ⟨fun _ => .ofNat 0, fun _ => 0, fun _ _ => true, fun _ _ _ => true⟩

def genesisPage : Page := plainGenesis 17 0

/-- A page on the genesis page that pays the whole emission to one lock. -/
def firstPage : Page :=
  { genesisPage with
    digest := .ofNat 100, parent := .ofNat 17, epochCounter := 1, height := 1,
    coinbase := .v0 (ZMap.put ∅ ⟨1, ∅⟩ (2 ^ 32)) }

end FirstBlock

end Nockchain.Consensus
