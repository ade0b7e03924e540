import Nockchain.Proofs.Consensus.Supply
import Nockchain.Proofs.TxEngine.Transfer
import Nockchain.Consensus.Miner

/-!
# `Nockchain.Proofs.Consensus.Order`: the order of a page's transactions

`validate-page-with-txs` means to test that the inputs of all transactions are in
the balance of the parent block, but it runs them over an accumulator that holds
the outputs of those before. So a page can be accepted whose transactions spend
notes of each other (`not_parentOnly_chained`), and only in the order in which
the set of its transactions happens to be traversed. The pages without such
transactions are those that spend notes of the parent only and are accepted in
every order (`parentOnly_iff`).
-/

set_option autoImplicit false

namespace Nockchain.Consensus

open Lib TxEngine TxAcc ZMap Mining List

section Order

variable [Tip5]

namespace State

/-- The transactions of a page, in the order in which `validate-page-with-txs` takes them. -/
def pageTxs (c : State) (pag : Page) : List RawTx := (pag.txIds.run c.getRawTx).tap.reduceOption

/-- Every note that a transaction of the page consumes is in the balance of its parent, and the
page's transactions can be taken in any order, with the fees `fees`. -/
def ParentOnly [Cheetah] (bc : BlockchainConstants) (c : State) (pag : Page) (fees : Nat) : Prop :=
  (∀ raw ∈ c.pageTxs pag, ∀ nam ∈ raw.inputNames, (c.balanceOf pag.parent).has nam = true) ∧
    ∀ order : List RawTx, order.Perm (c.pageTxs pag) → ∃ acc,
      balanceTransfer bc (order.map some) (new (c.balance.get pag.parent) pag.height)
        = some (some acc) ∧ acc.fees = fees

/-- No transaction of the page consumes a note that one of them creates. -/
def Unchained (c : State) (pag : Page) : Prop :=
  ∀ raw ∈ c.pageTxs pag, ∀ raw' ∈ c.pageTxs pag, ∀ notes, raw.outputNotes pag.height = some notes →
    ∀ note ∈ notes, note.name ∉ raw'.inputNames

theorem unchained_iff {c : State} {pag : Page} : c.Unchained pag ↔
    ∀ raw ∈ c.pageTxs pag, ∀ raw' ∈ c.pageTxs pag, Disjoint (raw.outs pag.height) raw'.ins := by
  refine forall₂_congr fun raw _ => forall₂_congr fun raw' _ => ?_
  rw [Set.disjoint_left]
  constructor
  · rintro h _ ⟨notes, hnotes, note, hnote, rfl⟩
    exact h notes hnotes note hnote
  · exact fun h notes hnotes note hnote => h ⟨notes, hnotes, note, hnote, rfl⟩

/-- The condition as a computation, for a page whose transactions are known. -/
theorem unchained_of_all {c : State} {pag : Page} {raws : List RawTx}
    (hraws : c.pageTxs pag = raws)
    (h : ∀ raw ∈ raws, ∀ raw' ∈ raws, (raw.outputNotes pag.height).all (fun notes =>
      notes.all fun note => note.name ∉ raw'.inputNames) = true) : c.Unchained pag := by
  subst hraws
  intro raw hraw raw' hraw' notes hnotes note hnote
  have hpair := h raw hraw raw' hraw'
  rw [hnotes, Option.all_some, all_eq_true] at hpair
  exact of_decide_eq_true (hpair note hnote)

end State

variable [Cheetah]

/-- The transactions of a page in any order, as a run. -/
theorem balanceTransfer_map_some {bc : BlockchainConstants} {order : List RawTx}
    {acc acc' : TxAcc} : State.balanceTransfer bc (order.map some) acc = some (some acc') ↔
      Run (fun f raw f' => f.process bc raw = .ok f') acc order acc' := by
  rw [balanceTransfer_eq_some, reduceOption]
  simp

/-- A run collects the fees of its transactions. -/
theorem fees_of_run {bc : BlockchainConstants} {raws : List RawTx} {acc acc' : TxAcc}
    (h : Run (fun f raw f' => f.process bc raw = .ok f') acc raws acc') :
    acc'.fees = acc.fees + (raws.map RawTx.fees).sum := by
  refine h.gains fees RawTx.fees fun f raw f' _ hstep => ?_
  obtain ⟨_, _, _, hmoves⟩ := moves_of_process hstep
  exact hmoves.fees_eq

end Order

/-- A page that is accepted spends notes of its parent only, in any order of its transactions,
exactly if none of them spends a note of another. -/
theorem parentOnly_iff [Tip5] [Cheetah] {bc : BlockchainConstants} {c : State} {pag : Page}
    {acc : TxAcc} (h : c.validatePageWithTxs bc pag = some (.ok acc)) :
    c.ParentOnly bc pag acc.fees ↔ c.Unchained pag := by
  have m := transfer_process bc pag.height
  have hrun := balanceTransfer_eq_some.1 (validatePageWithTxs_eq_ok h).1
  rw [State.unchained_iff]
  constructor
  · rintro ⟨hparent, horder⟩
    refine m.disjoint_of_perm (s := new (c.balance.get pag.parent) pag.height) rfl ?_ ?_
    · intro raw hraw nam hnam
      obtain ⟨note, hnote⟩ := has_eq_true.1 (hparent raw hraw nam hnam)
      rw [show (new (c.balance.get pag.parent) pag.height).balance.get nam = some note from
        hnote]
      exact Option.some_ne_none note
    · intro order hperm
      obtain ⟨acc', hacc', -⟩ := horder order hperm.symm
      exact ⟨acc', balanceTransfer_map_some.1 hacc'⟩
  · intro hdisj
    refine ⟨fun raw hraw nam hnam => ?_, fun order hperm => ?_⟩
    · have hne := m.present_of_run rfl hdisj ⟨acc, hrun⟩ hraw hnam
      exact has_eq_true.2 (Option.ne_none_iff_exists'.1 hne)
    · obtain ⟨acc', hacc'⟩ := m.run_perm rfl hdisj hperm.symm ⟨acc, hrun⟩
      refine ⟨acc', balanceTransfer_map_some.2 hacc', ?_⟩
      rw [fees_of_run hacc', fees_of_run hrun, (hperm.map RawTx.fees).sum_eq]
      rfl

/-! ### A transaction that spends an output of another -/

section Chained

section Parts

variable [Tip5]

/-- A lock that needs no signature. -/
def chainedLock : Sig := ⟨0, ∅⟩

def chainedNote (originPage : Nat) (name : Nname) (source : Source) (assets : Nat) : V0.Nnote :=
  { originPage, timelock := none, name, sig := chainedLock, source, assets }

/-- A transaction that spends a note, given its hash, with a fee of 1. -/
def chainedRaw (id : Digest) (note : V0.Nnote) (hash : Digest) : RawTx :=
  let seed : V0.Seed := ⟨none, chainedLock, none, note.assets - 1, hash⟩
  .v0 {
    id
    inputs := put ∅ note.name ⟨note, ⟨some ∅, ZSet.put ∅ seed, 1⟩⟩
    timelockRange := .unbounded
    totalFees := 1 }

/-- A page on the block that the transactions are run over. -/
def chainedPage (txIds : ZSet Digest) (reward : Nat) : Page :=
  { digest := .ofNat 100, pow := none, parent := .ofNat 73, txIds,
    coinbase := .v0 (put ∅ chainedLock reward), timestamp := 0, epochCounter := 2,
    target := ⟨[0]⟩, accumulatedWork := ⟨[9]⟩, height := 2, msg := [] }

end Parts

-- What the two transactions hash. The second is tabled itself, so that the set has it behind the
-- first.
local instance chainedTip5 : Tip5 :=
  tableTip5 [.atom 0, .atom 1, .atom 7, .atom 6, .atom 2, .atom 5,
      toNoun (some (Digest.ofNat 87, ((Nname.mk (.ofNat 23) (.ofNat 45),
        ((0, 2, (none : Option TimelockIntent)), Nname.mk (.ofNat 23) (.ofNat 45), (0, 0),
          Source.mk (.ofNat 35) false, 6),
        (some 0, (((none : Option Source), (0, 0), 0, 5, Digest.ofNat 63), 0, 0), 1)), 0, 0),
        TimelockRange.unbounded, 1))]
    ([(2, 0), (0, 0), (3, 0), (8, 0), (0, 1), (1, 1), (5, 4), (2, 5), (0, 7), (3, 2), (3, 13),
      (0, 15), (11, 21), (9, 25), (6, 27), (0, 29), (3, 31), (33, 3), (35, 2), (37, 3), (37, 6),
      (3, 37), (0, 39), (3, 41), (27, 43), (45, 0), (11, 49), (23, 51), (53, 3), (55, 47),
      (57, 19), (17, 59), (10, 63), (0, 65), (3, 67), (69, 3), (71, 2), (73, 3), (3, 73), (0, 75),
      (63, 77), (55, 81), (83, 3), (85, 19)].map fun x => (.ofNat x.1, .ofNat x.2))

local instance chainedCheetah : Cheetah := ⟨fun _ _ _ _ => false⟩

/-- The note that the first transaction spends, and its output. -/
def chainedNote0 : V0.Nnote := chainedNote 1 ⟨.ofNat 1, .ofNat 2⟩ ⟨.ofNat 3, true⟩ 7

def chainedNote1 : V0.Nnote := chainedNote 2 ⟨.ofNat 23, .ofNat 45⟩ ⟨.ofNat 35, false⟩ 6

def chainedRaw0 : RawTx := chainedRaw (.ofNat 61) chainedNote0 (.ofNat 27)

def chainedRaw1 : RawTx := chainedRaw (.ofNat 87) chainedNote1 (.ofNat 63)

/-- A state that has both transactions, and a block with the first note. -/
def chainedState : State :=
  { (default : State) with
    balance := put ∅ (.ofNat 73) (put ∅ chainedNote0.name (.v0 chainedNote0))
    rawTxs := put (put ∅ (.ofNat 61) (chainedRaw0, 1)) (.ofNat 87) (chainedRaw1, 1) }

/-- The page with both transactions. -/
def chainedPage2 : Page := chainedPage (ZSet.put (ZSet.put ∅ (.ofNat 61)) (.ofNat 87)) (2 ^ 32 + 2)

/-- The page is accepted, although the second transaction spends a note that is not in the balance
of the parent, and although the transactions fail in the other order. -/
theorem not_parentOnly_chained :
    (∃ acc, chainedState.validatePageWithTxs {} chainedPage2 = some (.ok acc)) ∧
      chainedState.pageTxs chainedPage2 = [chainedRaw0, chainedRaw1] ∧
      chainedNote1.name ∈ chainedRaw1.inputNames ∧
      (chainedState.balanceOf chainedPage2.parent).has chainedNote1.name = false ∧
      State.balanceTransfer {} ([chainedRaw1, chainedRaw0].map some)
        (TxAcc.new (chainedState.balance.get chainedPage2.parent) chainedPage2.height)
          = some none := by
  refine ⟨exists_ok_of_any ?_, ?_, ?_, ?_, ?_⟩ <;> decide +kernel

end Chained

/-! ### Two transactions that spend notes of the parent -/

section Apart

local instance apartTip5 : Tip5 := mixTip5

local instance apartCheetah : Cheetah := ⟨fun _ _ _ _ => false⟩

/-- Notes of one block, told apart by the last part of their names. -/
def apartNote (last : Nat) : V0.Nnote :=
  chainedNote 1 ⟨.ofNat 1, .ofNat last⟩ ⟨.ofNat 3, true⟩ 7

def apartRaw2 : RawTx := chainedRaw (.ofNat 605331) (apartNote 2) (.ofNat 593540)

def apartRaw3 : RawTx := chainedRaw (.ofNat 829284) (apartNote 3) (.ofNat 558947)

/-- A state that has both transactions, and a block with both notes. -/
def apartState : State :=
  { (default : State) with
    balance := put ∅ (.ofNat 73)
      (put (put ∅ (apartNote 2).name (.v0 (apartNote 2))) (apartNote 3).name (.v0 (apartNote 3)))
    rawTxs := put (put ∅ apartRaw2.id (apartRaw2, 1)) apartRaw3.id (apartRaw3, 1) }

def apartPage : Page :=
  chainedPage (ZSet.put (ZSet.put ∅ apartRaw2.id) apartRaw3.id) (2 ^ 32 + 2)

theorem parentOnly_iff_apart : ∃ acc,
    apartState.validatePageWithTxs {} apartPage = some (.ok acc) ∧
      (apartState.pageTxs apartPage).length = 2 ∧
      apartState.ParentOnly {} apartPage acc.fees := by
  have hok : ∃ acc, apartState.validatePageWithTxs {} apartPage = some (.ok acc) :=
    exists_ok_of_any (by decide +kernel)
  have hlength : (apartState.pageTxs apartPage).length = 2 := by decide +kernel
  -- Every pair of transactions, a transaction and itself included.
  have hall : ∀ raw ∈ apartState.pageTxs apartPage, ∀ raw' ∈ apartState.pageTxs apartPage,
      (raw.outputNotes apartPage.height).all (fun notes =>
        notes.all fun note => note.name ∉ raw'.inputNames) = true := by
    decide +kernel
  obtain ⟨acc, hacc⟩ := hok
  exact ⟨acc, hacc, hlength, (parentOnly_iff hacc).2 (State.unchained_of_all rfl hall)⟩

end Apart

/-!
## A page whose transactions ran in another order

The miner adds transactions to its block as it finds them; `validate-page-with-txs`
takes those of a page in the order of the set. If none of them spends a note of
another, both end with the same balance and the same fees (`Replays.reorder`),
and the page is as large by the miner's count as by `check-size`
(`Replays.checkSize`).
-/

variable [Tip5] [Cheetah] {bc : BlockchainConstants} {c : State} {pag : Page} {raws : List RawTx}
  {acc : TxAcc}

/-- The accumulator of a page, from the transactions of the page in the order `raws`. -/
structure Replays (bc : BlockchainConstants) (c : State) (pag : Page) (raws : List RawTx)
    (acc : TxAcc) : Prop where
  run : Run (fun f raw f' => f.process bc raw = .ok f')
    (new (c.balance.get pag.parent) pag.height) raws acc
  mem : ∀ txId, txId ∈ pag.txIds ↔ txId ∈ raws.map RawTx.id
  nodup : (raws.map RawTx.id).Nodup
  stored : ∀ raw ∈ raws, c.getRawTx raw.id = some raw

namespace Replays

section

variable (h : Replays bc c pag raws acc)

include h

/-- The transactions of the page, in the two orders. -/
theorem perm : raws.Perm (c.pageTxs pag) := by
  have hnodup : (c.pageTxs pag).Nodup := by
    refine List.Nodup.filterMap (fun x y z hx hy => ?_) (ZSet.nodup_tap _)
    simp only [id, Option.mem_def] at hx hy
    rw [hx, hy]
  refine (perm_ext_iff_of_nodup h.nodup.of_map hnodup).2 fun raw => ?_
  rw [State.pageTxs, reduceOption_mem_iff, ZSet.mem_tap, ZSet.mem_run]
  constructor
  · intro hraw
    exact ⟨raw.id, (h.mem _).2 (mem_map_of_mem hraw), h.stored raw hraw⟩
  · intro ⟨txId, htx, hget⟩
    obtain ⟨raw', hraw', rfl⟩ := mem_map.1 ((h.mem txId).1 htx)
    rw [h.stored raw' hraw'] at hget
    exact Option.some.inj hget ▸ hraw'

theorem height_eq : acc.height = pag.height :=
  h.run.invariant (fun f => f.height = pag.height)
    (fun _ _ _ _ hstep hf => (transfer_process bc pag.height).keep hf hstep) rfl

/-- The fees come out of the balance of the parent. -/
theorem fees_le : acc.fees ≤ Balance.total (c.balanceOf pag.parent) := by
  have hworth : acc.worth = (new (c.balance.get pag.parent) pag.height).worth :=
    h.run.invariant (fun f => f.worth = _)
      (fun _ _ _ _ hstep hf => (worth_process hstep).trans hf) rfl
  exact (Nat.le_add_left _ _).trans hworth.le

/-- One more transaction. -/
theorem put {raw : RawTx} {acc' : TxAcc}
    (hprocess : acc.process bc raw = .ok acc') (hfresh : raw.id ∉ pag.txIds)
    (hstored : c.getRawTx raw.id = some raw) (coinbase : CoinbaseSplit) :
    Replays bc c { pag with txIds := pag.txIds.put raw.id, coinbase } (raws ++ [raw]) acc' where
  run := h.run.concat hprocess
  mem txId := by
    rw [ZSet.mem_put, h.mem, map_append, mem_append, map_singleton,
      mem_singleton, or_comm]
  nodup := by
    rw [map_append, map_singleton, nodup_append]
    refine ⟨h.nodup, nodup_singleton _, fun x hx y hy heq => hfresh ?_⟩
    rw [mem_singleton] at hy
    rwa [h.mem, ← hy, ← heq]
  stored raw' hraw' := by
    rcases mem_append.1 hraw' with hold | hnew
    · exact h.stored raw' hold
    · rwa [mem_singleton.1 hnew]

/-- The order of the set leads to the same balance and the same fees. -/
theorem reorder (hunchained : c.Unchained pag) : ∃ acc',
    State.balanceTransfer bc (pag.txIds.run c.getRawTx).tap
        (new (c.balance.get pag.parent) pag.height) = some (some acc') ∧
      acc'.balance = acc.balance ∧ acc'.fees = acc.fees := by
  have m := transfer_process bc pag.height
  have hdisj : ∀ raw ∈ raws, ∀ raw' ∈ raws, Disjoint (raw.outs pag.height) raw'.ins :=
    fun raw hraw raw' hraw' => State.unchained_iff.1 hunchained raw (h.perm.mem_iff.1 hraw) raw'
      (h.perm.mem_iff.1 hraw')
  obtain ⟨acc', hrun⟩ := m.run_perm rfl hdisj h.perm ⟨acc, h.run⟩
  refine ⟨acc', balanceTransfer_eq_some.2 hrun, ext fun nam => ?_, ?_⟩
  · exact m.view_perm (fun hf hstep hout hin => get_created hf hstep hout hin) rfl hdisj
      h.perm h.run hrun nam
  · rw [fees_of_run hrun, fees_of_run h.run, (h.perm.map RawTx.fees).sum_eq]

end

omit [Cheetah] in
theorem rawTxOf_of_isOf {raw : RawTx} {tx : Tx} (h : tx.IsOf raw) : rawTxOf tx = raw := by
  cases tx with
  | v0 rawTx totalSize outputs | v1 tx => exact h.symm

/-- The accumulator records the transactions under their ids. -/
theorem txs_of_run {f f' : TxAcc} (h : Run (fun f raw f' => f.process bc raw = .ok f') f raws f')
    (hnodup : (raws.map RawTx.id).Nodup) (hfresh : ∀ raw ∈ raws, f.txs.get raw.id = none) :
    (f'.txs.tap.map fun x => (x.1, rawTxOf x.2)).Perm
      (raws.map (fun raw => (raw.id, raw)) ++ f.txs.tap.map fun x => (x.1, rawTxOf x.2)) := by
  induction h with
  | nil f => exact .refl _
  | @cons f mid f' raw raws hstep _ ih =>
    rw [map_cons, nodup_cons] at hnodup
    obtain ⟨_, _, _, hmoves⟩ := moves_of_process hstep
    obtain ⟨tx, hof, hput⟩ := hmoves.txs_eq
    have hrest := ih hnodup.2 fun raw' hraw' => by
      have hne : raw'.id ≠ raw.id := fun heq => hnodup.1 (heq ▸ mem_map_of_mem hraw')
      rw [hput, get_put, if_neg hne]
      exact hfresh raw' (.tail _ hraw')
    have htap := (tap_put_perm tx (hfresh raw mem_cons_self)).map
      fun x => (x.1, rawTxOf x.2)
    rw [← hput, map_cons, rawTxOf_of_isOf hof] at htap
    exact hrest.trans ((List.Perm.append_left _ htap).trans perm_middle)

/-- The miner adds up the sizes of the transactions that the accumulator records. -/
theorem sum_of_txsSizeBySet (h : Replays bc c pag raws acc) {size : Nat}
    (hsize : txsSizeBySet acc = some size) :
    (∀ raw ∈ raws, raw.size.isSome) ∧ size = (raws.map fun raw => raw.size.getD 0).sum := by
  have hperm := (txs_of_run h.run h.nodup fun raw _ => get_empty raw.id).map Prod.snd
  have hempty : (new (c.balance.get pag.parent) pag.height).txs.tap = [] :=
    tap_eq_nil.2 rfl
  rw [hempty, map_nil, append_nil, map_map, map_map] at hperm
  have hraws : (acc.txs.tap.map fun x => rawTxOf x.2).Perm raws := by
    simpa [Function.comp_def, map_id'] using hperm
  have htree : acc.txs.tree.preorder.Perm acc.txs.tap :=
    acc.txs.tree.preorder_perm.trans (by rw [tap, Tree.listOnto_eq]; simp)
  rw [txsSizeBySet, repM, Tree.foldM_eq,
    foldlM_add_eq_some fun x : Digest × Tx => (rawTxOf x.2).size] at hsize
  obtain ⟨hall, hsum⟩ := hsize
  refine ⟨fun raw hraw => ?_, ?_⟩
  · obtain ⟨x, hx, rfl⟩ := mem_map.1 (hraws.mem_iff.2 hraw)
    exact hall x (htree.mem_iff.2 hx)
  · rw [hsum, Nat.zero_add, (htree.map _).sum_eq, ← (hraws.map _).sum_eq, map_map]
    rfl

/-- `check-size` adds up the same sizes. -/
theorem checkSize (h : Replays bc c pag raws acc) {pageSize size : Nat}
    (hpage : pag.computeSizeWithoutTxs = some pageSize)
    (hsize : txsSizeBySet acc = some size) (hle : pageSize + size ≤ bc.maxBlockSize) :
    c.checkSize bc pag = some true := by
  obtain ⟨hall, hsum⟩ := h.sum_of_txsSizeBySet hsize
  have hids : pag.txIds.tap.Perm (raws.map RawTx.id) := by
    refine (perm_ext_iff_of_nodup (ZSet.nodup_tap _) h.nodup).2 fun txId => ?_
    rw [ZSet.mem_tap, h.mem]
  have hfold : pag.txIds.tap.foldlM (fun sum txId => do
      let raw ← c.getRawTx txId
      return sum + (← raw.size)) 0 = some size := by
    have hassoc : (fun (sum : Nat) txId => do
        let raw ← c.getRawTx txId
        return sum + (← raw.size)) = fun sum txId => do
        return sum + (← (c.getRawTx txId).bind RawTx.size) := by
      funext sum txId
      cases c.getRawTx txId <;> rfl
    rw [hassoc, foldlM_add_eq_some]
    refine ⟨fun txId htx => ?_, ?_⟩
    · obtain ⟨raw, hraw, rfl⟩ := mem_map.1 (hids.mem_iff.1 htx)
      rw [h.stored raw hraw]
      exact hall raw hraw
    · rw [(hids.map _).sum_eq, map_map, hsum, Nat.zero_add]
      refine congrArg sum (map_congr_left fun raw hraw => ?_)
      rw [Function.comp_apply, h.stored raw hraw]
      rfl
  unfold State.checkSize
  rw [hpage, hfold]
  show some (decide (pageSize + size ≤ bc.maxBlockSize)) = some true
  rw [decide_eq_true hle]

/-- A page that is not too large, and pays the emission and the fees, is valid in the order of the
set, with the same balance and the same fees. -/
theorem validate (h : Replays bc c pag raws acc) (hunchained : c.Unchained pag)
    {pageSize size emission : Nat} (hpage : pag.computeSizeWithoutTxs = some pageSize)
    (hsize : txsSizeBySet acc = some size) (hle : pageSize + size ≤ bc.maxBlockSize)
    (hemission : emissionCalc pag.height = some emission)
    (hcoins : pag.coinbase.coins.sum = emission + acc.fees) :
    ∃ acc', c.validatePageWithTxs bc pag = some (.ok acc') ∧ acc'.balance = acc.balance ∧
      acc'.fees = acc.fees := by
  obtain ⟨acc', htransfer, hbalance, hfees⟩ := h.reorder hunchained
  refine ⟨acc', ?_, hbalance, hfees⟩
  unfold State.validatePageWithTxs
  rw [h.checkSize hpage hsize hle]
  show (State.balanceTransfer bc (pag.txIds.run c.getRawTx).tap
    (new (c.balance.get pag.parent) pag.height)).bind _ = _
  rw [htransfer]
  show (emissionCalc pag.height).bind _ = _
  have htotal : pag.coinbase.coins.foldl (fun s c => c + s) 0 = emission + acc.fees := by
    rw [foldl_add_eq_sum' (fun x => x), map_id', Nat.zero_add, hcoins]
  rw [hemission, Option.bind_some, if_neg]
  · rfl
  · rw [htotal, hfees]
    exact fun hne => hne rfl

end Replays

end Nockchain.Consensus
