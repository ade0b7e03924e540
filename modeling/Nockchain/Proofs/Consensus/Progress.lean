import Nockchain.Proofs.Consensus.Collect
import Nockchain.Proofs.Consensus.Elders
import Nockchain.Proofs.Consensus.MedianTime

/-!
# `Nockchain.Proofs.Consensus.Progress`: when a block is entered without a crash

The arms that enter a valid block crash where an entry of some map is missing.
In a reachable state most entries are there: the transactions of the block, the
entries of its parent, the balance of a block that becomes the heaviest one
(`Funded`). `exists_acceptPage_iff` says what is left for `accept-page`: the
notes of the coinbase can be made, and the epoch that the page closes has a
duration. `exists_acceptBlock_iff` adds the miner, which turns to the new
heaviest block at the end of `accept-block`.

The last part is about a list of pending blocks that are processed one after
the other. What becomes of a block depends on the chain below it and on its
transactions alone, which the blocks before it leave as they are, so that the
condition for the whole list can be read off the state at its start
(`processReadyBlocks_iff`).
-/

set_option autoImplicit false

namespace Nockchain.Consensus

open Lib TxEngine Relation State ZMap List Balance

/-! ### Balances -/

section Balances

variable [Tip5] {bc : BlockchainConstants} {pag par : Page} {c : State}

/-- Notes with assets leave a balance with assets. -/
theorem total_enterNotes_pos {b : Balance} {notes : List Nnote}
    (hpos : ∀ note ∈ notes, 0 < V1.Nnote.assets note) (h : 0 < total b ∨ notes ≠ []) :
    0 < total (enterNotes b notes) := by
  induction notes generalizing b with
  | nil => exact h.resolve_right fun hne => hne rfl
  | cons note notes ih =>
    obtain ⟨hnote, hrest⟩ := forall_mem_cons.1 hpos
    refine ih hrest (.inl ?_)
    have hdel : total ((b.put note.name note).del note.name) + V1.Nnote.assets note
        = total (b.put note.name note) := total_del V1.Nnote.assets (by rw [get_put, if_pos rfl])
    exact hdel ▸ Nat.add_pos_right _ hnote

/-- No part of a coinbase that passed its check is empty. -/
theorem pos_of_isBased {coinbase : CoinbaseSplit} (h : coinbase.isBased bc = true) :
    ∀ coin ∈ coinbase.coins, 0 < coin := by
  intro coin hcoin
  cases coinbase with
  | v0 split | v1 split =>
    obtain ⟨key, hkey⟩ := mem_val.1 hcoin
    have hall := all_eq_true.1 (Bool.and_eq_true_iff.1 h).2 (key, coin) (mem_tap.2 hkey)
    simp only [Bool.and_eq_true, decide_eq_true_eq] at hall
    omega

/-- Every block on top of another has a balance with assets in it. -/
def State.Funded (c : State) : Prop :=
  ∀ x pag, c.blocks.get x = some pag → pag.height ≠ 0 → 0 < total (c.balanceOf x)

/-- A page without a coinbase comes long after the first one, and then its transactions leave the
balance of its parent as it is. -/
theorem State.Funded.page [Cheetah] (h : c.Funded) (hpar : c.blocks.get pag.parent = some par)
    (hheight : pag.height = par.height + 1) (hcoins : ∀ coin ∈ pag.coinbase.coins, 0 < coin)
    {acc : TxAcc} (hvalid : c.validatePageWithTxs bc pag = some (.ok acc))
    (hnone : c.balance.get pag.digest = none) {notes : List Nnote}
    (hnotes : coinbases bc pag = some notes) :
    0 < total (((c.enterBalance pag acc notes).get pag.digest).getD ∅) := by
  have hassets := assets_coinbases hnotes
  rw [enterBalance_get_digest (by rw [balanceOf, hnone]; rfl)]
  refine total_enterNotes_pos
    (fun note hnote => hcoins _ (hassets ▸ mem_map_of_mem hnote)) ?_
  by_cases hempty : notes = []
  · obtain ⟨htransfer, emission, hemission, hsplit⟩ := validatePageWithTxs_eq_ok hvalid
    rw [← hassets, hempty, map_nil, sum_nil] at hsplit
    have hworth : total acc.balance + acc.fees = total (c.balanceOf pag.parent) :=
      (balanceTransfer_spec htransfer).1
    have hparent : par.height ≠ 0 := by
      intro hzero
      rw [hheight, hzero, show emissionCalc (0 + 1) = some (2 ^ 32) by decide] at hemission
      cases hemission
      omega
    have hpos := h _ par hpar hparent
    exact .inl (by omega)
  · exact .inr hempty

end Balances

/-! ### Acceptance -/

section Acceptance

variable [Tip5] [Pow] [Cheetah] {cfg : Config} {c c' : State} {d : Derived} {pag : Page}

omit [TxEngine.Pow] [Cheetah] in
theorem Keeps.of_eq {c'' : State} (h : Keeps c c') (hchain : c''.chain = c'.chain) : Keeps c c'' := by
  have hsame := Keeps.of_chain hchain
  constructor
  · exact fun x pag hget => hsame.blocks x pag (h.blocks x pag hget)
  · exact fun x hx => (congrArg (fun chain => chain.epochStart.get x) hchain).trans (h.epochStart x hx)
  · exact fun x hx =>
      (congrArg (fun chain => chain.minTimestamps.get x) hchain).trans (h.minTimestamps x hx)
  · exact fun x hx => (congrArg (fun chain => chain.targets.get x) hchain).trans (h.targets x hx)
  · exact fun x hx => (congrArg (fun chain => chain.balance.get x) hchain).trans (h.balance x hx)

/-- The heaviest block is one of the accepted blocks. -/
theorem Turns.heaviest {x : State × Derived} (h : Turns cfg default x) :
    ∀ y, x.1.heaviestBlock = some y → ∃ tip, x.1.blocks.get y = some tip := by
  induction h with
  | refl =>
    nofun
  | tail _ hturn ih =>
    intro y hy
    cases hturn with
    | mempool _ hchain hheaviest =>
      obtain ⟨tip, htip⟩ := ih y (hheaviest ▸ hy)
      exact ⟨tip, (congrArg (fun chain => chain.blocks.get y) hchain).trans htip⟩
    | highest => exact ih y hy
    | accept enters haccepted =>
      obtain ⟨-, hblocks, ⟨-, hnew⟩ | ⟨old, tip, -, hold, hnew⟩⟩ :=
        haccepted.heaviest_cases enters
      · cases hnew.symm.trans hy
        exact ⟨_, (hblocks _).trans (if_pos rfl)⟩
      rw [hy] at hnew
      split at hnew
      · cases hnew
        exact ⟨_, (hblocks _).trans (if_pos rfl)⟩
      · cases hnew
        exact ⟨tip, hold⟩

theorem Turns.reachable (h : Turns cfg default (c, d)) : Reachable cfg c :=
  Reachable.init.steps (Turns.steps h)

/-- A page that passed the checks has a proof of work, where these are checked, and no empty part in
its coinbase. -/
theorem Reachable.checked (h : Reachable cfg c)
    (hpag : Heard cfg c pag ∨ ∃ heardAt, c.pendingBlocks.get pag.digest = some (pag, heardAt)) :
    pag.height ≠ 0 → (!cfg.bc.checkPowFlag || pag.pow.isSome) = true ∧
      ∀ coin ∈ pag.coinbase.coins, 0 < coin := by
  have hheard : ∀ c pag, Heard cfg c pag → (!cfg.bc.checkPowFlag || pag.pow.isSome) = true ∧
      ∀ coin ∈ pag.coinbase.coins, 0 < coin := by
    intro c pag heard
    obtain ⟨par, nowSecs, hpage⟩ := heard.pageChecked
    refine ⟨?_, pos_of_isBased hpage.coinbase⟩
    have hpow := heard.pow
    unfold Page.checkPow at hpow
    cases hflag : cfg.bc.checkPowFlag with
    | false => rfl
    | true =>
      cases hproof : pag.pow with
      | none => simp [hflag, hproof] at hpow
      | some pow => rfl
  rcases hpag with heard | ⟨heardAt, hget⟩
  · exact fun _ => hheard c pag heard
  · refine h.blockAt_of (P := fun _ pag => pag.height ≠ 0 →
      (!cfg.bc.checkPowFlag || pag.pow.isSome) = true ∧ ∀ coin ∈ pag.coinbase.coins, 0 < coin)
      (fun _ _ _ _ => id) ?_ ?_ _ pag (.inr ⟨heardAt, hget⟩)
    · exact fun _ pag hgenesis hheight => absurd hgenesis.height hheight
    · exact fun c pag heard _ => hheard c pag heard

/-- The window has a block in it, or genesis would not have been accepted. -/
theorem Reachable.window (h : Reachable cfg c) {x : Digest} (hx : c.blocks.has x = true) :
    cfg.bc.minPastBlocks ≠ 0 := by
  induction h with
  | init => cases hx
  | step _ hstep ih =>
    have haccepted : ∀ {c c' pag acc}, State.AcceptedPage cfg.bc c pag acc c' →
        cfg.bc.minPastBlocks ≠ 0 := by
      intro c c' pag acc h hzero
      have htimes := h.minTimestamps
      simp [updateMinTimestamps, hzero, guard] at htimes
    cases hstep.shift with
    | mempool hchain _ =>
      exact ih ((congrArg (fun chain => chain.blocks.has x) hchain).symm.trans hx)
    | genesis _ h | page _ _ h => exact haccepted h

section

variable (hrun : Turns cfg default (c, d))
  (hpag : Heard cfg c pag ∨ ∃ heardAt, c.pendingBlocks.get pag.digest = some (pag, heardAt))
include hrun hpag

end

section

omit [TxEngine.Pow] [Cheetah]

end

end Acceptance

/-! ### A block and the miner -/

section Blocks

variable [Tip5] [Pow] [Cheetah] {cfg : Config} {k k' : Kernel} {tip pag : Page} {acc : TxAcc}
  {now : Nat} {c : State} {y : Digest} {effs : List Effect} {bc : BlockchainConstants}

namespace Kernel

/-- What has changed when a page has entered a reachable state with this heaviest block. -/
structure Entered (cfg : Config) (k : Kernel) (tip pag : Page) (c : State) : Prop where
  reachable : Consensus.Reachable cfg c
  keeps : Keeps k.c c
  block : c.blocks.get pag.digest = some pag
  heaviest : c.heaviestBlock =
    if pag.compareHeaviness tip then some pag.digest else k.c.heaviestBlock
  pending : ∀ x v, c.pendingBlocks.get x = some v ↔
    x ≠ pag.digest ∧ k.c.pendingBlocks.get x = some v ∧
      ¬ (pag.compareHeaviness tip ∧ ∃ r, k.retain = some r ∧ v.2 + r ≤ pag.height)
  raws : ∀ x page txId, c.BlockAt x page → txId ∈ page.txIds →
    c.rawTxs.get txId = k.c.rawTxs.get txId

section

variable (hrun : Turns cfg default (k.c, k.d))
  (hpag : Heard cfg k.c pag ∨ ∃ heardAt, k.c.pendingBlocks.get pag.digest = some (pag, heardAt))
  (hvalid : k.c.validatePageWithTxs cfg.bc pag = some (.ok acc))
include hrun hpag hvalid

end

end Kernel

end Blocks

/-! ### Ready blocks -/

section ReadyBlocks

variable [Tip5] [Cheetah] {cfg : Config} {bc : BlockchainConstants} {c c' : State}
  {tip pag : Page}

namespace State

/-- The verdict on a page depends on the balance of its parent and on its transactions. -/
theorem validatePageWithTxs_congr (hbalance : c'.balance.get pag.parent = c.balance.get pag.parent)
    (hraws : ∀ txId ∈ pag.txIds, c'.rawTxs.get txId = c.rawTxs.get txId) :
    c'.validatePageWithTxs bc pag = c.validatePageWithTxs bc pag := by
  have hget : ∀ txId ∈ pag.txIds, c'.getRawTx txId = c.getRawTx txId := by
    intro txId htx
    rw [getRawTx, getRawTx, hraws txId htx]
  have hsum : ∀ (l : List Digest) (sum : Nat), (∀ txId ∈ l, txId ∈ pag.txIds) →
      l.foldlM (fun sum txId => do return sum + (← (← c'.getRawTx txId).size)) sum
        = l.foldlM (fun sum txId => do return sum + (← (← c.getRawTx txId).size)) sum := by
    intro l
    induction l with
    | nil => exact fun _ _ => rfl
    | cons txId l ih =>
      intro sum hl
      obtain ⟨htx, hl⟩ := forall_mem_cons.1 hl
      rw [foldlM_cons, foldlM_cons, hget txId htx]
      exact bind_congr fun sum => ih sum hl
  have hsize : c'.checkSize bc pag = c.checkSize bc pag := by
    rw [checkSize, checkSize, hsum _ _ fun txId htx => ZSet.mem_tap.1 htx]
  rw [validatePageWithTxs, validatePageWithTxs, hsize, ZSet.run_congr hget, hbalance]

/-- The page is valid with its transactions, and heavier than the heaviest block. -/
def overtakes (bc : BlockchainConstants) (c : State) (tip pag : Page) : Bool :=
  pag.compareHeaviness tip && (c.validatePageWithTxs bc pag).any Except.toBool

/-- The page can be checked together with its transactions, and entered if it is valid. -/
def Settles (bc : BlockchainConstants) (c : State) (pag : Page) : Prop :=
  ∃ r, c.validatePageWithTxs bc pag = some r ∧ ∀ acc, r = .ok acc →
    (∃ notes, coinbases bc pag = some notes) ∧ c.ClosesEpoch bc pag

end State

namespace Kernel

variable [Pow] {k k' : Kernel} {now : Nat} {y : Digest} {effs : List Effect}

/-- What the kernel leaves when it has processed a pending page: the page itself is pending no
more, and if it is the new heaviest block then neither are those that were heard too long ago. -/
structure Processed (cfg : Config) (k : Kernel) (tip pag : Page) (k' : Kernel) : Prop where
  turns : Turns cfg default (k'.c, k'.d)
  retain : k'.retain = k.retain
  keeps : Keeps k.c k'.c
  heaviest : ∃ y, k'.c.heaviestBlock = some y ∧
    k'.c.blocks.get y = some (if k.c.overtakes cfg.bc tip pag then pag else tip)
  pending : ∀ x v, k'.c.pendingBlocks.get x = some v ↔
    x ≠ pag.digest ∧ k.c.pendingBlocks.get x = some v ∧
      ¬ (k.c.overtakes cfg.bc tip pag ∧ ∃ r, k.retain = some r ∧ v.2 + r ≤ pag.height)
  raws : ∀ x page txId, k'.c.BlockAt x page → txId ∈ page.txIds →
    k'.c.rawTxs.get txId = k.c.rawTxs.get txId

section

variable (hrun : Turns cfg default (k.c, k.d)) {heardAt : Nat}
  (hget : k.c.pendingBlocks.get pag.digest = some (pag, heardAt))
include hrun hget

end

/-- A block that is still pending is judged as before. -/
theorem Processed.same (hrun : Turns cfg default (k.c, k.d)) (h : Processed cfg k tip pag k')
    {x : Digest} {v : Page × Nat} (hx : k'.c.pendingBlocks.get x = some v) :
    k'.c.validatePageWithTxs cfg.bc v.1 = k.c.validatePageWithTxs cfg.bc v.1 ∧
      (k'.c.ClosesEpoch cfg.bc v.1 ↔ k.c.ClosesEpoch cfg.bc v.1) := by
  have htimed : Timed cfg.bc k.c := .of_turns hrun
  have hbooks := State.Bookkeeping.of_reachable hrun.reachable
  have hget := ((h.pending x v).1 hx).2.1
  have hdigest : v.1.digest = x := hbooks.digest x v.1 (.inr ⟨v.2, hget⟩)
  obtain ⟨par, hfollows⟩ := htimed.follows hbooks (.inr ⟨v.2, hdigest ▸ hget⟩)
  refine ⟨State.validatePageWithTxs_congr
    (h.keeps.balance _ (has_eq_true.2 ⟨par, hfollows.parent⟩)) fun txId htx => ?_,
    htimed.closesEpoch_congr hbooks (.of_reachable hrun.reachable) hfollows h.keeps⟩
  exact h.raws x v.1 txId (.inr ⟨v.2, hx⟩) htx

section NoKeys

omit [TxEngine.Pow]

end NoKeys

variable [Curve]

end Kernel

end ReadyBlocks

end Nockchain.Consensus
