import Nockchain.Proofs.Consensus.Mempool

/-!
# `Nockchain.Proofs.Consensus.Determined`: what a block's entries depend on

`accept-page` makes the entries of a block from the entries of its ancestors,
which no later page changes. `Entries` are the equations that they satisfy in
any later state, so that two states agree on a block when they agree on what the
equations read: the page, which the digest binds, the entries of its parent,
and the transactions, which the state looks up by their ids. An id does not bind
a transaction, so the last is an assumption: the two runs have heard at most one
transaction for each id (`agree_of_reachable`). Without it they can come to
different balances for one block (`not_agree_split`).
-/

set_option autoImplicit false

namespace Nockchain.Consensus

open Lib TxEngine State ZMap Option

section Determined

variable [Tip5]

/-! ### Pages with one digest -/

variable {notes : List Nnote}

/-- A split of version 0 is accepted before the upgrade only, one of version 1 from it on. -/
theorem height_of_coinbases {bc : BlockchainConstants} {pag : Page}
    (h : coinbases bc pag = some notes) :
    (∀ split, pag.coinbase = .v0 split → pag.height < bc.v1Phase) ∧
      ∀ split, pag.coinbase = .v1 split → bc.v1Phase ≤ pag.height := by
  unfold coinbases at h
  refine ⟨fun split hsplit => ?_, fun split hsplit => ?_⟩
  · simp only [hsplit, bind_eq_some, guard_eq_some'] at h
    obtain ⟨-, hheight, -⟩ := h
    exact hheight
  · simp only [hsplit, bind_eq_some, guard_eq_some'] at h
    obtain ⟨-, hheight, -⟩ := h
    exact hheight

section Digests

variable (cf : CollisionFree)
include cf

variable {pag pag' : Page}

/-- Splits that are accepted at one height are bound by their hash. -/
theorem coinbase_of_same {bc : BlockchainConstants} {notes' : List Nnote}
    (hs : Same pag.coinbase.hashable pag'.coinbase.hashable) (hheight : pag.height = pag'.height)
    (h : coinbases bc pag = some notes) (h' : coinbases bc pag' = some notes') :
    pag.coinbase = pag'.coinbase := by
  have hversion := height_of_coinbases h
  have hversion' := height_of_coinbases h'
  cases hsplit : pag.coinbase with
  | v0 split =>
    cases hsplit' : pag'.coinbase with
    | v0 split' =>
      rw [hsplit, hsplit'] at hs
      rw [((binds_sig cf).pair cf (Binds.leafOf cf)).zmap cf split split' hs]
    | v1 split' =>
      have hlt := hversion.1 split hsplit
      have hle := hversion'.2 split' hsplit'
      omega
  | v1 split =>
    cases hsplit' : pag'.coinbase with
    | v0 split' =>
      have hle := hversion.2 split hsplit
      have hlt := hversion'.1 split' hsplit'
      omega
    | v1 split' =>
      rw [hsplit, hsplit'] at hs
      rw [(binds_digest.pair cf (Binds.leafOf cf)).zmap cf split split' hs]

variable [Pow]

/-- Pages with one digest have one block commitment: they can differ in the proof of work and in
the version of the split. -/
theorem fields_of_digest {d : Digest} (h : pag.computeDigest = some d)
    (h' : pag'.computeDigest = some d) : Same pag.coinbase.hashable pag'.coinbase.hashable ∧
      { pag with pow := pag'.pow, coinbase := pag'.coinbase, digest := pag'.digest } = pag' := by
  obtain ⟨digest, pow, parent, txIds, coinbase, timestamp, epochCounter, target, work, height,
    msg⟩ := pag
  obtain ⟨digest', pow', parent', txIds', coinbase', timestamp', epochCounter', target', work',
    height', msg'⟩ := pag'
  obtain ⟨-, hs⟩ := (Same.of_eq h h').pair cf
  obtain ⟨hparent, hs⟩ := hs.pair cf
  obtain ⟨htxIds, hs⟩ := hs.pair cf
  obtain ⟨hcoinbase, hs⟩ := hs.pair cf
  obtain ⟨htimestamp, hs⟩ := hs.pair cf
  obtain ⟨hepoch, hs⟩ := hs.pair cf
  obtain ⟨htarget, hs⟩ := hs.pair cf
  obtain ⟨hwork, hs⟩ := hs.pair cf
  obtain ⟨hheight, hmsg⟩ := hs.pair cf
  obtain rfl : parent = parent' := hparent.hash
  obtain rfl : txIds = txIds' := binds_digest.zset cf _ _ htxIds
  obtain rfl : timestamp = timestamp' := htimestamp.leafOf cf
  obtain rfl : epochCounter = epochCounter' := hepoch.leafOf cf
  obtain rfl : target = target' := htarget.leafOf cf
  obtain rfl : work = work' := hwork.leafOf cf
  obtain rfl : height = height' := hheight.leafOf cf
  obtain rfl : msg = msg' := hmsg.leafOf cf
  exact ⟨hcoinbase, rfl⟩

/-- Accepted pages with one digest differ in the proof of work at most. -/
theorem eq_of_digest {bc : BlockchainConstants} {d : Digest}
    {notes' : List Nnote} (h : pag.computeDigest = some d) (h' : pag'.computeDigest = some d)
    (hdigest : pag.digest = pag'.digest) (hc : coinbases bc pag = some notes)
    (hc' : coinbases bc pag' = some notes') : { pag with pow := pag'.pow } = pag' := by
  obtain ⟨hsame, heq⟩ := fields_of_digest cf h h'
  have hheight : pag.height = pag'.height := by rw [← heq]
  have hcoinbase := coinbase_of_same cf hsame hheight hc hc'
  rwa [← hcoinbase, ← hdigest] at heq

end Digests

/-! ### The equations -/

variable {acc : TxAcc}

namespace State

variable {pag : Page}

variable {c c' : State}

theorem epochStartOf_congr
    (h : pag.height ≠ 0 → c.epochStart.get pag.parent = c'.epochStart.get pag.parent) :
    c.epochStartOf pag = c'.epochStartOf pag := by
  unfold epochStartOf
  split
  · rfl
  · rename_i hheight
    rw [h hheight]

/-- The target of a page depends on the entries of its epoch and of its parent only. -/
theorem targetOf_congr {bc : BlockchainConstants}
    (hstart : c.epochStart.get pag.digest = c'.epochStart.get pag.digest)
    (htime : c.minTimestamps.get pag.digest = c'.minTimestamps.get pag.digest)
    (hstartTime : ∀ s, c.epochStart.get pag.digest = some s →
      c.minTimestamps.get s = c'.minTimestamps.get s)
    (htarget : pag.height ≠ 0 → c.targets.get pag.parent = c'.targets.get pag.parent) :
    c.targetOf bc pag = c'.targetOf bc pag := by
  have hduration : c.computeEpochDuration pag.digest = c'.computeEpochDuration pag.digest := by
    unfold computeEpochDuration
    rw [← hstart, ← htime]
    cases hs : c.epochStart.get pag.digest with
    | none => rfl
    | some s => rw [bind_eq_bind, bind_some, bind_some,
        hstartTime s hs]
  unfold targetOf computeTarget
  rw [hduration]
  split
  · rfl
  split
  · rfl
  · rename_i hheight
    rw [htarget hheight]

/-- The balance of a block, from the accumulator of its transactions and its coinbase notes; none
where there is nothing in it. -/
def balanceEntry (b : Balance) (notes : List Nnote) : Option Balance :=
  notes.foldl (fun entry note => some ((entry.getD ∅).put note.name note))
    (if b ≠ ∅ then some b else none)

/-- The balance of the new block is its own, the others stay. -/
theorem get_enterBalance (hnone : c.balance.get pag.digest = none) (x : Digest) :
    (c.enterBalance pag acc notes).get x
      = if x = pag.digest then balanceEntry acc.balance notes else c.balance.get x := by
  have hfold : ∀ (bal : ZMap Digest Balance),
      (notes.foldl (fun bal note => ZMip.put bal pag.digest note.name note) bal).get x
        = if x = pag.digest then
            notes.foldl (fun entry note => some ((entry.getD ∅).put note.name note))
              (bal.get pag.digest)
          else bal.get x := by
    induction notes with
    | nil =>
      intro bal
      by_cases hx : x = pag.digest <;> simp [hx]
    | cons note notes ih =>
      intro bal
      rw [List.foldl_cons, ih]
      by_cases hx : x = pag.digest <;> simp [hx, ZMip.put, gut]
  rw [enterBalance, hfold, balanceEntry]
  split
  · split <;> simp [hnone]
  · rename_i hx
    split <;> simp [hx]

end State

/-- Two states have the same entries for a block. -/
structure Agree (c c' : State) (x : Digest) : Prop where
  epochStart : c.epochStart.get x = c'.epochStart.get x
  minTimestamps : c.minTimestamps.get x = c'.minTimestamps.get x
  targets : c.targets.get x = c'.targets.get x
  balance : c.balance.get x = c'.balance.get x

section Equations

variable [Cheetah]

/-- The accumulator of a page's transactions over the balance of its parent, each of them known and
under its id. The genesis page has none. -/
def Transferred (bc : BlockchainConstants) (known : RawTx → Prop) (parent : Option Balance)
    (pag : Page) (acc : TxAcc) : Prop :=
  if pag.height = 0 then acc = default
  else ∃ raws : Digest → Option RawTx,
    (∀ txId ∈ pag.txIds, ∃ raw, raws txId = some raw ∧ raw.id = txId ∧ known raw) ∧
      balanceTransfer bc (pag.txIds.run raws).tap (TxAcc.new parent pag.height)
        = some (some acc)

variable {pag : Page}

variable {bc : BlockchainConstants} {known : RawTx → Prop}

theorem Transferred.congr {parent parent' : Option Balance}
    (h : Transferred bc known parent pag acc) (hparent : pag.height ≠ 0 → parent' = parent) :
    Transferred bc known parent' pag acc := by
  unfold Transferred at h ⊢
  split
  · rename_i hheight
    rwa [if_pos hheight] at h
  · rename_i hheight
    rw [if_neg hheight] at h
    rwa [hparent hheight]

/-- Where an id has one known transaction at most, a page has one accumulator. -/
theorem Transferred.unique
    (hone : ∀ raw raw', known raw → known raw' → raw.id = raw'.id → raw = raw')
    {parent : Option Balance} {acc' : TxAcc}
    (h : Transferred bc known parent pag acc) (h' : Transferred bc known parent pag acc') :
    acc = acc' := by
  unfold Transferred at h h'
  split at h
  · rename_i hheight
    rw [if_pos hheight] at h'
    rw [h, h']
  rename_i hheight
  rw [if_neg hheight] at h'
  obtain ⟨raws, hraws, htransfer⟩ := h
  obtain ⟨raws', hraws', htransfer'⟩ := h'
  have hrun : pag.txIds.run raws = pag.txIds.run raws' := by
    refine ZSet.run_congr fun txId htx => ?_
    obtain ⟨raw, hraw, hid, hknown⟩ := hraws txId htx
    obtain ⟨raw', hraw', hid', hknown'⟩ := hraws' txId htx
    rw [hraw, hraw', hone raw raw' hknown hknown' (hid.trans hid'.symm)]
  rw [hrun, htransfer'] at htransfer
  cases htransfer
  rfl

/-- The equations for the entries of an accepted page. They read its ancestors' entries. -/
structure Entries (bc : BlockchainConstants) (known : RawTx → Prop) (c : State) (pag : Page) :
    Prop where
  parent : pag.height ≠ 0 → ∃ par, c.blocks.get pag.parent = some par ∧ pag.height = par.height + 1
  epochStart : c.epochStart.get pag.digest = c.epochStartOf pag
  start : ∃ s, c.epochStart.get pag.digest = some s ∧ c.blocks.has s = true
  minTimestamps : ∃ l, c.prevTimestamps (bc.minPastBlocks - 1) pag [] = some l ∧
    c.minTimestamps.get pag.digest = median l
  targets : c.targets.get pag.digest = c.targetOf bc pag
  balance : ∃ acc notes, Transferred bc known (c.balance.get pag.parent) pag acc ∧
    coinbases bc pag = some notes ∧
    c.balance.get pag.digest = balanceEntry acc.balance notes

/-- `c'` has the blocks of `c`, with the entries that they have there. -/
structure Keeps (c c' : State) : Prop where
  blocks : ∀ x pag, c.blocks.get x = some pag → c'.blocks.get x = some pag
  epochStart : ∀ x, c.blocks.has x = true → c'.epochStart.get x = c.epochStart.get x
  minTimestamps : ∀ x, c.blocks.has x = true → c'.minTimestamps.get x = c.minTimestamps.get x
  targets : ∀ x, c.blocks.has x = true → c'.targets.get x = c.targets.get x
  balance : ∀ x, c.blocks.has x = true → c'.balance.get x = c.balance.get x

variable {c c' : State}

omit [Cheetah] in
theorem Keeps.of_chain (h : c'.chain = c.chain) : Keeps c c' where
  blocks x pag hget := by
    rwa [show c'.blocks = c.blocks from congrArg State.Chain.blocks h]
  epochStart x _ := by rw [show c'.epochStart = c.epochStart from congrArg State.Chain.epochStart h]
  minTimestamps x _ := by
    rw [show c'.minTimestamps = c.minTimestamps from congrArg State.Chain.minTimestamps h]
  targets x _ := by rw [show c'.targets = c.targets from congrArg State.Chain.targets h]
  balance x _ := by rw [show c'.balance = c.balance from congrArg State.Chain.balance h]

/-- The equations of a page hold in every state that keeps its ancestors. -/
theorem Entries.keep
    (h : Entries bc known c pag) (hpag : c.blocks.get pag.digest = some pag) (hk : Keeps c c') :
    Entries bc known c' pag := by
  have hhas : c.blocks.has pag.digest := has_eq_true.2 ⟨pag, hpag⟩
  have hparent : pag.height ≠ 0 → c.blocks.has pag.parent := by
    intro hheight
    obtain ⟨par, hpar, -⟩ := h.parent hheight
    exact has_eq_true.2 ⟨par, hpar⟩
  obtain ⟨s, hs, hsblock⟩ := h.start
  refine ⟨fun hheight => ?_, ?_, ⟨s, ?_, ?_⟩, ?_, ?_, ?_⟩
  · obtain ⟨par, hpar, heq⟩ := h.parent hheight
    exact ⟨par, hk.blocks _ _ hpar, heq⟩
  · rw [hk.epochStart _ hhas, h.epochStart]
    exact epochStartOf_congr fun hheight => (hk.epochStart _ (hparent hheight)).symm
  · rw [hk.epochStart _ hhas, hs]
  · obtain ⟨page, hpage⟩ := has_eq_true.1 hsblock
    exact has_eq_true.2 ⟨page, hk.blocks _ _ hpage⟩
  · obtain ⟨l, hl, hmedian⟩ := h.minTimestamps
    exact ⟨l, prevTimestamps_mono hk.blocks hl, (hk.minTimestamps _ hhas).trans hmedian⟩
  · rw [hk.targets _ hhas, h.targets]
    refine targetOf_congr (hk.epochStart _ hhas).symm (hk.minTimestamps _ hhas).symm
      (fun s' hs' => ?_) fun hheight => (hk.targets _ (hparent hheight)).symm
    obtain rfl : s = s' := mem_unique hs hs'
    exact (hk.minTimestamps _ hsblock).symm
  · obtain ⟨acc, notes, htransferred, hnotes, hbalance⟩ := h.balance
    exact ⟨acc, notes, htransferred.congr fun hheight => hk.balance _ (hparent hheight), hnotes,
      (hk.balance _ hhas).trans hbalance⟩

section

variable (h : State.AcceptedPage bc c pag acc c') (hnone : c.balance.get pag.digest = none)

include h hnone

omit [Cheetah] in
/-- Accepting a page keeps the blocks that are there. -/
theorem Keeps.of_accepted : Keeps c c' := by
  have hne : ∀ x, c.blocks.has x → x ≠ pag.digest := by
    rintro x hx rfl
    rw [has, h.fresh] at hx
    cases hx
  constructor
  · intro x page hpage
    rw [h.blocks, get_put, if_neg (hne x (has_eq_true.2 ⟨page, hpage⟩)), hpage]
  · intro x hx
    obtain ⟨start, -, hstart⟩ := h.epochStart
    rw [hstart, get_put, if_neg (hne x hx)]
  · intro x hx
    obtain ⟨l, m, -, -, htimes⟩ := updateMinTimestamps_eq_some h.minTimestamps
    rw [htimes, get_put, if_neg (hne x hx)]
  · intro x hx
    obtain ⟨target, -, htargets⟩ := h.targets
    rw [htargets, get_put, if_neg (hne x hx)]
  · intro x hx
    obtain ⟨notes, -, hbalance⟩ := h.balance
    rw [hbalance, get_enterBalance hnone, if_neg (hne x hx)]

/-- The entries that `accept-page` makes satisfy their equations. -/
theorem entries_of_accepted (hblock : c'.blocks.get pag.digest = some pag)
    (hparent : pag.height ≠ 0 → ∃ par, c.blocks.get pag.parent = some par ∧
      pag.height = par.height + 1)
    (hstart : pag.height ≠ 0 → ∃ s, c.epochStart.get pag.parent = some s ∧ c.blocks.has s)
    (htransferred : Transferred bc known (c.balance.get pag.parent) pag acc) :
    Entries bc known c' pag := by
  have hk := Keeps.of_accepted h hnone
  have hhas : pag.height ≠ 0 → c.blocks.has pag.parent := by
    intro hheight
    obtain ⟨par, hpar, -⟩ := hparent hheight
    exact has_eq_true.2 ⟨par, hpar⟩
  have hblocks : ∀ x, c.blocks.has x → c'.blocks.has x := by
    intro x hx
    obtain ⟨page, hpage⟩ := has_eq_true.1 hx
    exact has_eq_true.2 ⟨page, hk.blocks _ _ hpage⟩
  obtain ⟨start, hstartOf, hepoch⟩ := h.epochStart
  obtain ⟨l, m, hl, hm, htimes⟩ := updateMinTimestamps_eq_some h.minTimestamps
  obtain ⟨target, htargetOf, htargets⟩ := h.targets
  obtain ⟨notes, hnotes, hbalance⟩ := h.balance
  refine ⟨fun hheight => ?_, ?_, ⟨start, ?_, ?_⟩, ⟨l, ?_, ?_⟩, ?_, acc, notes, ?_, hnotes, ?_⟩
  · obtain ⟨par, hpar, heq⟩ := hparent hheight
    exact ⟨par, hk.blocks _ _ hpar, heq⟩
  · rw [hepoch, get_put, if_pos rfl, ← hstartOf]
    exact epochStartOf_congr fun hheight => (hk.epochStart _ (hhas hheight)).symm
  · rw [hepoch, get_put, if_pos rfl]
  · -- The epoch starts at the page itself, at its parent, or where that of its parent does.
    unfold epochStartOf at hstartOf
    split at hstartOf
    · cases hstartOf
      exact has_eq_true.2 ⟨pag, hblock⟩
    rename_i hheight
    split at hstartOf
    · cases hstartOf
      exact hblocks _ (hhas hheight)
    · obtain ⟨s, hs, hsblock⟩ := hstart hheight
      obtain rfl : s = start := mem_unique hs hstartOf
      exact hblocks _ hsblock
  · exact prevTimestamps_mono hk.blocks hl
  · rw [htimes, get_put, if_pos rfl, hm]
  · rw [htargets, get_put, if_pos rfl, ← htargetOf]
    exact targetOf_congr rfl rfl (fun _ _ => rfl) fun hheight =>
      (hk.targets _ (hhas hheight)).symm
  · exact htransferred.congr fun hheight => hk.balance _ (hhas hheight)
  · rw [hbalance, get_enterBalance hnone, if_pos rfl]

end

end Equations

/-! ### Runs -/

section Runs

variable [Pow] [Cheetah]

/-- The states that a node reaches when all transactions that it ever holds are among `known`. -/
inductive ReachableWith (known : RawTx → Prop) (cfg : Config) : State → Prop where
  | init : ReachableWith known cfg default
  | step {c c' : State} (hc : ReachableWith known cfg c) (h : Step cfg c c')
      (hknown : ∀ txId v, c'.rawTxs.get txId = some v → known v.1) : ReachableWith known cfg c'

theorem ReachableWith.reachable {known : RawTx → Prop} {cfg : Config} {c : State}
    (h : ReachableWith known cfg c) : Reachable cfg c := by
  induction h with
  | init => exact .init
  | step _ hstep _ ih => exact .step ih hstep

theorem ReachableWith.known {known : RawTx → Prop} {cfg : Config} {c : State}
    (h : ReachableWith known cfg c) {txId : Digest} {v : RawTx × Nat}
    (hget : c.rawTxs.get txId = some v) : known v.1 := by
  cases h with
  | init => cases hget
  | step _ _ hknown => exact hknown txId v hget

/-- What holds in every run: the blocks have their digests and a parent one height below, and the
entries of the accepted ones satisfy their equations. -/
structure Determined (bc : BlockchainConstants) (known : RawTx → Prop) (c : State) : Prop where
  digest : ∀ x pag, c.BlockAt x pag → pag.computeDigest = some x
  pending : ∀ x pag heardAt, c.pendingBlocks.get x = some (pag, heardAt) → pag.height ≠ 0 ∧
    ∃ par, c.blocks.get pag.parent = some par ∧ pag.height = par.height + 1
  fresh : ∀ x, c.blocks.get x = none → c.balance.get x = none
  entries : ∀ x pag, c.blocks.get x = some pag → Entries bc known c pag

namespace Determined

variable {bc : BlockchainConstants} {known : RawTx → Prop} {c c' : State}

theorem init : Determined bc known (default : State) where
  digest x pag hat := by
    rcases hat with hget | ⟨_, hget⟩ <;> cases hget
  pending x pag heardAt hget := by cases hget
  fresh x _ := rfl
  entries x pag hget := by cases hget

/-- Arms that leave the chain alone, and make pending only what was heard. -/
theorem of_chain (h : Determined bc known c) (hbooks : c.Bookkeeping) (hchain : c'.chain = c.chain)
    (hpending : ∀ x pag heardAt, c'.pendingBlocks.get x = some (pag, heardAt) →
      c.pendingBlocks.get x = some (pag, heardAt) ∨ pag.computeDigest = some x ∧ pag.height ≠ 0 ∧
          ∃ par, c.blocks.get pag.parent = some par ∧ pag.height = par.height + 1) :
    Determined bc known c' := by
  have hblocks : c'.blocks = c.blocks := congrArg State.Chain.blocks hchain
  have hbalance : c'.balance = c.balance := congrArg State.Chain.balance hchain
  refine ⟨?_, ?_, ?_, ?_⟩
  · rintro x pag (hget | ⟨heardAt, hget⟩)
    · exact h.digest x pag (.inl (hblocks ▸ hget))
    · rcases hpending x pag heardAt hget with hold | ⟨hdigest, -⟩
      · exact h.digest x pag (.inr ⟨heardAt, hold⟩)
      · exact hdigest
  · intro x pag heardAt hget
    rw [hblocks]
    rcases hpending x pag heardAt hget with hold | ⟨-, hnew⟩
    · exact h.pending x pag heardAt hold
    · exact hnew
  · intro x hx
    rw [hbalance]
    exact h.fresh x (hblocks ▸ hx)
  · intro x pag hget
    rw [hblocks] at hget
    have hx : pag.digest = x := hbooks.digest x pag (.inl hget)
    exact (h.entries x pag hget).keep (hx ▸ hget) (Keeps.of_chain hchain)

/-- Accepting a page whose block is the page itself. -/
theorem accept {pag : Page} (h : Determined bc known c) (hbooks : c.Bookkeeping)
    (haccepted : State.AcceptedPage bc c pag acc c') (hdigest : pag.computeDigest = some pag.digest)
    (hblock : c'.blocks.get pag.digest = some pag)
    (hparent : pag.height ≠ 0 → ∃ par, c.blocks.get pag.parent = some par ∧
      pag.height = par.height + 1)
    (htransferred : Transferred bc known (c.balance.get pag.parent) pag acc) :
    Determined bc known c' := by
  have hnone := h.fresh _ haccepted.fresh
  have hk := Keeps.of_accepted haccepted hnone
  have hget : ∀ x, x ≠ pag.digest → c'.blocks.get x = c.blocks.get x := by
    intro x hx
    rw [haccepted.blocks, get_put, if_neg hx]
  refine ⟨?_, ?_, ?_, ?_⟩
  · rintro x page (hpage | ⟨heardAt, hpage⟩)
    · by_cases hx : x = pag.digest
      · rw [hx, hblock] at hpage
        cases hpage
        rw [hx, hdigest]
      · exact h.digest x page (.inl (hget x hx ▸ hpage))
    · exact h.digest x page (.inr ⟨heardAt, haccepted.pending x _ hpage⟩)
  · intro x page heardAt hpage
    obtain ⟨hheight, par, hpar, heq⟩ := h.pending x page heardAt (haccepted.pending x _ hpage)
    exact ⟨hheight, par, hk.blocks _ _ hpar, heq⟩
  · intro x hx
    have hne : x ≠ pag.digest := by
      rintro rfl
      rw [hblock] at hx
      cases hx
    obtain ⟨notes, -, hbalance⟩ := haccepted.balance
    rw [hbalance, get_enterBalance hnone, if_neg hne]
    exact h.fresh x (hget x hne ▸ hx)
  · intro x page hpage
    by_cases hx : x = pag.digest
    · rw [hx, hblock] at hpage
      cases hpage
      refine entries_of_accepted haccepted hnone hblock hparent (fun hheight => ?_) htransferred
      obtain ⟨par, hpar, -⟩ := hparent hheight
      have hpar' : par.digest = pag.parent := hbooks.digest _ _ (.inl hpar)
      rw [← hpar']
      exact (h.entries _ par hpar).start
    · rw [hget x hx] at hpage
      have hdig : page.digest = x := hbooks.digest x page (.inl hpage)
      exact (h.entries x page hpage).keep (hdig ▸ hpage) hk

variable {cfg : Config}

section

variable (h : Determined cfg.bc known c) (hbooks : c.Bookkeeping)

include h hbooks

/-- A step that leaves the chain alone. -/
theorem mempool
    (hshift : Shift cfg c c') (hchain : c'.chain = c.chain) : Determined cfg.bc known c' := by
  refine h.of_chain hbooks hchain fun x pag heardAt hget => ?_
  rcases hshift.pending hget with hold | ⟨rfl, heard⟩
  · exact .inl hold
  · obtain ⟨par, nowSecs, hpage⟩ := heard.pageChecked
    exact .inr ⟨computeDigest_of_check hpage.digest, heard.height, par, hpage.parent,
      hpage.height⟩

theorem genesis {pag : Page} {btcHash : Option Digest}
    (hfresh : c.pendingBlocks.get pag.digest = none)
    (heard : checkGenesis cfg pag btcHash = some true)
    (haccepted : State.AcceptedPage cfg.bc c pag default c') : Determined cfg.bc known c' := by
  have hgenesis := checkGenesis_eq_true heard
  have hheight := hgenesis.height
  refine h.accept hbooks haccepted (computeDigest_of_check hgenesis.digest)
    (haccepted.block fun v hget => ?_) (fun hne => absurd hheight hne)
    (by rw [Transferred, if_pos hheight])
  rw [hfresh] at hget
  cases hget

/-- A page that is accepted gets the entries that its own block and those before it determine. -/
theorem page {pag : Page} (hknown : ∀ txId v, c.rawTxs.get txId = some v → known v.1)
    (heard : Heard cfg c pag ∨ ∃ heardAt, c.pendingBlocks.get pag.digest = some (pag, heardAt))
    (valid : c.validatePageWithTxs cfg.bc pag = some (.ok acc))
    (haccepted : State.AcceptedPage cfg.bc c pag acc c') : Determined cfg.bc known c' := by
  -- Checked just now, or when the page became pending.
  obtain ⟨hdigest, hheight, hparent⟩ : pag.computeDigest = some pag.digest ∧ pag.height ≠ 0 ∧
      ∃ par, c.blocks.get pag.parent = some par ∧ pag.height = par.height + 1 := by
    rcases heard with heard | ⟨heardAt, hget⟩
    · obtain ⟨par, nowSecs, hpage⟩ := heard.pageChecked
      exact ⟨computeDigest_of_check hpage.digest, heard.height, par, hpage.parent, hpage.height⟩
    · exact ⟨h.digest _ _ (.inr ⟨heardAt, hget⟩), h.pending _ _ _ hget⟩
  refine h.accept hbooks haccepted hdigest (haccepted.block ?_) (fun _ => hparent) ?_
  · intro v hget
    rcases heard with heard | ⟨heardAt, hpending⟩
    · have hfresh := heard.fresh
      simp [has, hget] at hfresh
    · rw [hpending] at hget
      cases hget
      rfl
  · rw [Transferred, if_neg hheight]
    refine ⟨c.getRawTx, fun txId htx => ?_, (validatePageWithTxs_eq_ok valid).1⟩
    obtain ⟨raw, hraw⟩ := getRawTx_of_validate valid htx
    obtain ⟨⟨raw', heardAt⟩, hget, rfl⟩ := map_eq_some_iff.1 hraw
    exact ⟨raw', hraw, hbooks.id _ _ _ hget, hknown _ _ hget⟩

end

theorem step (cf : CollisionFree) (h : Determined cfg.bc known c)
    (hbooks : c.Bookkeeping) (hknown : ∀ txId v, c.rawTxs.get txId = some v → known v.1)
    (hstep : Step cfg c c') : Determined cfg.bc known c' := by
  cases hstep.shift with
  | mempool hchain hpending => exact h.mempool hbooks hstep.shift hchain
  | @genesis pag btcHash heard haccepted =>
    refine h.genesis hbooks ?_ heard haccepted
    -- A pending block has a height, so it is not this page.
    cases hget : c.pendingBlocks.get pag.digest with
    | none => rfl
    | some v =>
      have hgenesis := checkGenesis_eq_true heard
      have hpage : v.1.computeDigest = some pag.digest := h.digest _ _ (.inr ⟨v.2, hget⟩)
      obtain ⟨-, heq⟩ := fields_of_digest cf (computeDigest_of_check hgenesis.digest) hpage
      have hsame : pag.height = v.1.height := by rw [← heq]
      exact absurd (hsame.symm.trans hgenesis.height) (h.pending _ _ _ hget).1
  | page heard valid haccepted => exact h.page hbooks hknown heard valid haccepted

theorem of_reachable (cf : CollisionFree) (h : ReachableWith known cfg c) :
    Determined cfg.bc known c := by
  induction h with
  | init => exact .init
  | step hc hstep _ ih =>
    exact ih.step cf (.of_reachable hc.reachable) (fun _ _ hget => hc.known hget) hstep

/-! ### Two states -/

section Agreement

variable (cf : CollisionFree) (h : Determined bc known c) (h' : Determined bc known c')
  (hbooks : c.Bookkeeping) (hbooks' : c'.Bookkeeping)
include cf h h' hbooks hbooks'

variable {pag pag' : Page}

/-- A block that two states have accepted is the same in both, but for its proof of work. -/
theorem page_eq {x : Digest} (hpag : c.blocks.get x = some pag)
    (hpag' : c'.blocks.get x = some pag') : { pag with pow := pag'.pow } = pag' := by
  obtain ⟨-, notes, -, hnotes, -⟩ := (h.entries x pag hpag).balance
  obtain ⟨-, notes', -, hnotes', -⟩ := (h'.entries x pag' hpag').balance
  have hdigest : pag.digest = x := hbooks.digest x pag (.inl hpag)
  have hdigest' : pag'.digest = x := hbooks'.digest x pag' (.inl hpag')
  exact eq_of_digest cf (h.digest x pag (.inl hpag)) (h'.digest x pag' (.inl hpag'))
    (hdigest.trans hdigest'.symm) hnotes hnotes'

/-- The timestamps of the blocks before are the same in both states, by induction on their count. -/
theorem prevTimestamps_eq {b : Nat} {x : Digest} {acc : List Nat}
    (hpag : c.blocks.get x = some pag) (hpag' : c'.blocks.get x = some pag') :
    c.prevTimestamps b pag acc = c'.prevTimestamps b pag' acc := by
  induction b generalizing x pag pag' acc with
  | zero =>
    rw [← page_eq cf h h' hbooks hbooks' hpag hpag']
    rfl
  | succ b ih =>
    have hparent := (h.entries x pag hpag).parent
    have hparent' := (h'.entries x pag' hpag').parent
    rw [← page_eq cf h h' hbooks hbooks' hpag hpag'] at hparent' ⊢
    unfold prevTimestamps
    split
    · rfl
    rename_i hheight
    obtain ⟨par, hpar, -⟩ := hparent hheight
    obtain ⟨par', hpar', -⟩ := hparent' hheight
    rw [hpar, hpar']
    exact ih hpar hpar'

/-- Two states agree on the entries of a block that both have accepted, and on the timestamp of the
start of its epoch. The induction is on the height. -/
theorem agree (hone : ∀ raw raw', known raw → known raw' → raw.id = raw'.id → raw = raw') (n : Nat)
    {x : Digest} (hpag : c.blocks.get x = some pag)
    (hpag' : c'.blocks.get x = some pag') (hn : pag.height = n) :
    Agree c c' x ∧ ∀ s, c.epochStart.get x = some s →
      c.minTimestamps.get s = c'.minTimestamps.get s := by
  induction n using Nat.strong_induction_on generalizing x pag pag' with
  | _ n ih =>
    have hentries := h.entries x pag hpag
    have hentries' := h'.entries x pag' hpag'
    have hprev : c.prevTimestamps (bc.minPastBlocks - 1) pag []
        = c'.prevTimestamps (bc.minPastBlocks - 1) pag' [] :=
      prevTimestamps_eq cf h h' hbooks hbooks' hpag hpag'
    obtain rfl : pag.digest = x := hbooks.digest x pag (.inl hpag)
    have hpage := page_eq cf h h' hbooks hbooks' hpag hpag'
    have hparent : pag.height ≠ 0 → Agree c c' pag.parent ∧
        ∀ s, c.epochStart.get pag.parent = some s →
          c.minTimestamps.get s = c'.minTimestamps.get s := by
      intro hheight
      obtain ⟨par, hpar, heq⟩ := hentries.parent hheight
      obtain ⟨par', hpar', -⟩ := hentries'.parent (by rwa [← hpage])
      rw [← hpage] at hpar'
      exact ih par.height (by omega) hpar hpar' rfl
    -- From here on, the equations of both states are about one page.
    have hepoch : c.epochStart.get pag.digest = c'.epochStart.get pag.digest := by
      have hepoch' := hentries'.epochStart
      rw [← hpage] at hepoch'
      rw [hentries.epochStart, hepoch']
      exact epochStartOf_congr fun hheight => (hparent hheight).1.epochStart
    have htimes : c.minTimestamps.get pag.digest = c'.minTimestamps.get pag.digest := by
      obtain ⟨l, hl, hmedian⟩ := hentries.minTimestamps
      obtain ⟨l', hl', hmedian'⟩ := hentries'.minTimestamps
      obtain rfl : l = l' := mem_unique hl (hprev.trans hl')
      rw [← hpage] at hmedian'
      exact hmedian.trans hmedian'.symm
    have hstart : ∀ s, c.epochStart.get pag.digest = some s →
        c.minTimestamps.get s = c'.minTimestamps.get s := by
      intro s hs
      rw [hentries.epochStart, epochStartOf] at hs
      split at hs
      · cases hs
        exact htimes
      rename_i hheight
      split at hs
      · cases hs
        exact (hparent hheight).1.minTimestamps
      · exact (hparent hheight).2 s hs
    refine ⟨⟨hepoch, htimes, ?_, ?_⟩, hstart⟩
    · have htargets' := hentries'.targets
      rw [← hpage] at htargets'
      rw [hentries.targets, htargets']
      exact targetOf_congr hepoch htimes hstart fun hheight =>
        (hparent hheight).1.targets
    · obtain ⟨acc, notes, htransferred, hnotes, hbalance⟩ := hentries.balance
      obtain ⟨acc', notes', htransferred', hnotes', hbalance'⟩ := hentries'.balance
      rw [← hpage] at htransferred' hnotes' hbalance'
      obtain rfl : notes = notes' := mem_unique hnotes hnotes'
      obtain rfl : acc = acc' := htransferred.unique hone
        (Transferred.congr htransferred' fun hheight => (hparent hheight).1.balance)
      exact hbalance.trans hbalance'.symm

end Agreement

end Determined

/-- Two runs that hear at most one transaction for each id come to the same entries for every block
that both accept. -/
theorem agree_of_reachable {cfg : Config} {known : RawTx → Prop} (cf : CollisionFree)
    (hone : ∀ raw raw', known raw → known raw' → raw.id = raw'.id → raw = raw') {c c' : State}
    (hc : ReachableWith known cfg c) (hc' : ReachableWith known cfg c') {x : Digest}
    (hx : c.blocks.has x = true) (hx' : c'.blocks.has x = true) : Agree c c' x := by
  obtain ⟨pag, hpag⟩ := has_eq_true.1 hx
  obtain ⟨pag', hpag'⟩ := has_eq_true.1 hx'
  exact (Determined.agree cf (.of_reachable cf hc) (.of_reachable cf hc')
    (.of_reachable hc.reachable) (.of_reachable hc'.reachable) hone pag.height hpag hpag' rfl).1

end Runs

end Determined

/-! ### Two transactions of one id -/

section Split

/-- The noun of a seed of the transaction below. -/
def splitSeedNoun (source : Option Source) (m gift : Nat) : Noun :=
  toNoun (source, (m, 0), 0, gift, Digest.ofNat 95)

-- What the pages, the notes and the transactions below hash, the seeds and their tips last.
local instance splitTip5 : Tip5 :=
  tableTip5 [.atom 0, toNoun (Bignum.mk [0]), toNoun (Bignum.mk [3]), .atom (2 ^ 32), .atom 1,
      toNoun (Bignum.mk [6]), .atom 2, .atom 3, .atom (2 ^ 32 - 6), .atom (2 ^ 33 - 6),
      toNoun (Bignum.mk [9]), splitSeedNoun none 0 1,
      splitSeedNoun (some ⟨.ofNat 127, false⟩) 0 1, splitSeedNoun none 1 3,
      splitSeedNoun none 0 2]
    ([(0, 0), (8, 0), (12, 0), (4, 1), (1, 6), (10, 3), (1, 0), (0, 3), (1, 16), (3, 0), (1, 18),
      (20, 5), (2, 7), (9, 1), (2, 11), (8, 13), (8, 19), (21, 1), (2, 23), (0, 25), (8, 29),
      (0, 31), (0, 33), (12, 37), (0, 39), (0, 41), (0, 47), (0, 49), (27, 51), (35, 53), (0, 55),
      (0, 57), (0, 61), (0, 65), (67, 63), (67, 0), (0, 69), (71, 1), (71, 6), (0, 75), (1, 77),
      (73, 0), (79, 0), (83, 1), (43, 85), (0, 87), (89, 81), (15, 93), (8, 95), (12, 95),
      (14, 95), (0, 97), (0, 99), (0, 101), (1, 103), (1, 105), (3, 107), (111, 1), (109, 1),
      (0, 115), (117, 0), (117, 115), (109, 119), (111, 121), (113, 123), (129, 16), (125, 8),
      (127, 8), (1, 131), (133, 1), (135, 1), (95, 137), (0, 139), (0, 141), (89, 143), (149, 1),
      (151, 17), (153, 1), (155, 59), (73, 157), (0, 159), (26, 26), (22, 22), (28, 28),
      (24, 24)].map fun x => (.ofNat x.1, .ofNat x.2))

local instance splitPow : Pow := firstPow

local instance splitCheetah : Cheetah := ⟨fun _ _ _ _ => false⟩

def splitConfig : Config :=
  { bc := { genesisTargetAtom := 0, maxTargetAtom := 3, checkPowFlag := false,
            firstMonthCoinbaseMin := 0, coinbaseTimelockMin := 0 }
    genesisSeal := some (.ofNat 0)
    realnetGenesisMsg := .ofNat 1000
    checkpointedDigests := ∅ }

/-- A lock that needs no signature. -/
def openLock : Sig := ⟨0, ∅⟩

def splitPage0 : Page := plainGenesis 67 0

def splitPage1 : Page :=
  { splitPage0 with
    digest := .ofNat 73, parent := .ofNat 67, epochCounter := 1, height := 1,
    accumulatedWork := ⟨[6]⟩, coinbase := .v0 (put ∅ openLock (2 ^ 32)) }

def splitPage2 : Page :=
  { splitPage1 with
    digest := .ofNat 161, parent := .ofNat 73, epochCounter := 2, height := 2,
    accumulatedWork := ⟨[9]⟩, coinbase := .v0 (put ∅ openLock (2 ^ 33 - 6)),
    txIds := ZSet.put ∅ (.ofNat 153) }

/-- The coinbase note of the second page. -/
def splitNote : V0.Nnote :=
  { originPage := 1, timelock := Coinbase.timelock splitConfig.bc 1,
    name := ⟨.ofNat 43, .ofNat 79⟩, sig := openLock, source := ⟨.ofNat 67, true⟩,
    assets := 2 ^ 32 }

/-- The coinbase note given to two locks, to the first in two seeds. One of these says where its
output comes from, or does not: the id is the same. -/
def splitRaw (outputSource : Option Source) : V0.RawTx :=
  { id := .ofNat 153,
    inputs := put ∅ splitNote.name
      ⟨splitNote, ⟨some ∅, ZSet.gas ∅ [⟨outputSource, openLock, none, 1, .ofNat 95⟩,
        ⟨none, ⟨1, ∅⟩, none, 3, .ofNat 95⟩, ⟨none, openLock, none, 2, .ofNat 95⟩], 2 ^ 32 - 6⟩⟩
    timelockRange := .unbounded, totalFees := 2 ^ 32 - 6 }

/-- A page that is heard and accepted. -/
def splitAccept (pag : Page) (c : State) : Option State := do
  guard (pag.height ≠ 0 ∧ c.blocks.has pag.parent = true ∧
    (c.blocks.has pag.digest || c.pendingBlocks.has pag.digest) = false ∧
    c.validatePageWithoutTxs splitConfig pag 0 = some (.ok ()) ∧
    pag.checkPow splitConfig.bc = some true)
  match ← c.validatePageWithTxs splitConfig.bc pag with
  | .error _ => none
  | .ok acc => c.acceptPage splitConfig.bc pag acc

theorem step_of_splitAccept {pag : Page} {c c' : State} (h : splitAccept pag c = some c') :
    Step splitConfig c c' := by
  simp only [splitAccept, bind_eq_some, guard_eq_some'] at h
  obtain ⟨-, ⟨hheight, hparent, hfresh, hchecked, hpow⟩, res, hvalid, h⟩ := h
  cases res with
  | error t => cases h
  | ok acc => exact .acceptPage (.inl ⟨hheight, hparent, hfresh, ⟨0, hchecked⟩, hpow⟩) hvalid h

/-- The states after the first two pages. -/
def splitState0 : State :=
  ((default : State).acceptPage splitConfig.bc splitPage0 default).getD default

def splitState1 : State := (splitState0.updateHeaviest splitPage0).getD default

def splitState2 : State := (splitAccept splitPage1 splitState1).getD default

def splitState3 : State := (splitState2.updateHeaviest splitPage1).getD default

/-- The state with a transaction. -/
def splitAdded (outputSource : Option Source) : State :=
  ((splitState3.addRawTx (.v0 (splitRaw outputSource))).map Prod.snd).getD default

/-- The state with the page that has the transaction. -/
def splitState4 (outputSource : Option Source) : State :=
  (splitAccept splitPage2 (splitAdded outputSource)).getD default

/-- One of the two transactions, and the other. -/
def splitSource : Option Source := some ⟨.ofNat 127, false⟩

variable {outputSource : Option Source}

theorem heardTx_splitRaw (h : outputSource = none ∨ outputSource = splitSource) :
    HeardTx (.v0 (splitRaw outputSource)) := by
  rcases h with rfl | rfl <;> exact ⟨by decide +kernel, by decide +kernel, by decide +kernel⟩

/-- The two pages are accepted whatever transactions there are. -/
theorem reachableWith_splitState3 (known : RawTx → Prop) :
    ReachableWith known splitConfig splitState3 := by
  have ⟨h0, hraw0⟩ :
      (default : State).acceptPage splitConfig.bc splitPage0 default = some splitState0 ∧
        splitState0.rawTxs = ∅ := eq_some_getD_of_any (fun c : State => c.rawTxs = ∅) (by decide +kernel)
  have ⟨h1, hraw1⟩ : splitState0.updateHeaviest splitPage0 = some splitState1 ∧
      splitState1.rawTxs = ∅ := eq_some_getD_of_any (fun c : State => c.rawTxs = ∅) (by decide +kernel)
  have ⟨h2, hraw2⟩ : splitAccept splitPage1 splitState1 = some splitState2 ∧
      splitState2.rawTxs = ∅ := eq_some_getD_of_any (fun c : State => c.rawTxs = ∅) (by decide +kernel)
  have ⟨h3, hraw3⟩ : splitState2.updateHeaviest splitPage1 = some splitState3 ∧
      splitState3.rawTxs = ∅ := eq_some_getD_of_any (fun c : State => c.rawTxs = ∅) (by decide +kernel)
  have hgenesis : checkGenesis splitConfig splitPage0 none = some true := by decide +kernel
  have hnone {c : State} (hc : c.rawTxs = ∅) :
      ∀ txId v, c.rawTxs.get txId = some v → known v.1 := by
    intro txId v hv
    rw [hc] at hv
    cases hv
  have r0 : ReachableWith known splitConfig splitState0 :=
    .step .init (.acceptGenesis hgenesis h0) (hnone hraw0)
  have r1 : ReachableWith known splitConfig splitState1 :=
    .step r0 (.updateHeaviest (by decide +kernel) h1) (hnone hraw1)
  have r2 : ReachableWith known splitConfig splitState2 :=
    .step r1 (step_of_splitAccept h2) (hnone hraw2)
  exact .step r2 (.updateHeaviest (by decide +kernel) h3) (hnone hraw3)

/-- The only transaction of a state is the one heard. -/
abbrev SplitHeard (outputSource : Option Source) (c : State) : Prop :=
  c.rawTxs = put ∅ (.ofNat 153) (.v0 (splitRaw outputSource), 1)

/-- What the state with the last page looks like: it has a note of this name exactly where the seed
has a source. -/
abbrev SplitEnd (outputSource : Option Source) (c : State) : Prop :=
  SplitHeard outputSource c ∧ c.blocks.has splitPage2.digest = true ∧
    (c.balance.get splitPage2.digest).any (·.has ⟨.ofNat 43, .ofNat 147⟩) = outputSource.isSome

theorem splitState4_eq (h : outputSource = none ∨ outputSource = splitSource) :
    splitAccept splitPage2 (splitAdded outputSource) = some (splitState4 outputSource) ∧
      SplitEnd outputSource (splitState4 outputSource) := by
  refine eq_some_getD_of_any (SplitEnd outputSource) ?_
  rcases h with rfl | rfl <;> decide +kernel

theorem SplitHeard.known {c : State} (hc : SplitHeard outputSource c) :
    ∀ txId v, c.rawTxs.get txId = some v → v.1 = .v0 (splitRaw outputSource) := by
  intro txId v hv
  rw [hc, get_put] at hv
  split at hv
  · cases hv
    rfl
  · cases hv

/-- Either transaction is added to the state with two pages. -/
theorem reachableWith_splitAdded (h : outputSource = none ∨ outputSource = splitSource) :
    ReachableWith (· = .v0 (splitRaw outputSource)) splitConfig (splitAdded outputSource) := by
  have ⟨hadd, hraw⟩ : (splitState3.addRawTx (.v0 (splitRaw outputSource))).map Prod.snd
        = some (splitAdded outputSource) ∧ SplitHeard outputSource (splitAdded outputSource) := by
    refine eq_some_getD_of_any (SplitHeard outputSource) ?_
    rcases h with rfl | rfl <;> decide +kernel
  obtain ⟨⟨ready, c⟩, hadd, hc⟩ := map_eq_some_iff.1 hadd
  exact hc ▸ .step (reachableWith_splitState3 _)
    (.addRawTx (heardTx_splitRaw h) hadd) (SplitHeard.known (hc.symm ▸ hraw))

/-- Then the page that has its id is accepted. -/
theorem reachableWith_splitState4 (h : outputSource = none ∨ outputSource = splitSource) :
    ReachableWith (· = .v0 (splitRaw outputSource)) splitConfig (splitState4 outputSource) := by
  obtain ⟨haccept, hraw, -⟩ := splitState4_eq h
  exact .step (reachableWith_splitAdded h) (step_of_splitAccept haccept) (SplitHeard.known hraw)

/-- The page spends a coinbase note of `2 ^ 32` nicks in three seeds and leaves all but six of them
as its fee, which the coinbase of the page collects on top of the emission. -/
theorem total_acceptPage_split : ∃ acc c', acc.fees = 2 ^ 32 - 6 ∧
    (splitAdded none).validatePageWithTxs splitConfig.bc splitPage2 = some (.ok acc) ∧
      (splitAdded none).acceptPage splitConfig.bc splitPage2 acc = some c' ∧
      ∃ emission, emissionCalc splitPage2.height = some emission ∧
        Balance.total (c'.balanceOf splitPage2.digest)
          = Balance.total ((splitAdded none).balanceOf splitPage2.parent) + emission := by
  have hfees : ((splitAdded none).validatePageWithTxs splitConfig.bc splitPage2).any
      fun res => res.toOption.any fun acc => acc.fees = 2 ^ 32 - 6 := by decide +kernel
  obtain ⟨haccept, -⟩ := splitState4_eq (.inl rfl)
  simp only [splitAccept, bind_eq_some] at haccept
  obtain ⟨-, -, res, hvalid, haccept⟩ := haccept
  rw [hvalid] at hfees
  cases res with
  | error t => cases haccept
  | ok acc =>
    exact ⟨acc, _, of_decide_eq_true hfees, hvalid, haccept,
      total_acceptPage (collisionFree_tableTip5 _ _) (reachableWith_splitAdded (.inl rfl)).reachable
        hvalid haccept⟩

/-- The two runs accept one block with two balances. -/
theorem not_agree_split : ∃ c c' : State, Reachable splitConfig c ∧ Reachable splitConfig c' ∧
    c.blocks.has splitPage2.digest = true ∧ c'.blocks.has splitPage2.digest = true ∧
      ¬ Agree c c' splitPage2.digest := by
  obtain ⟨-, -, hx, hname⟩ := splitState4_eq (.inl rfl)
  obtain ⟨-, -, hx', hname'⟩ := splitState4_eq (.inr rfl)
  refine ⟨splitState4 none, splitState4 splitSource,
    (reachableWith_splitState4 (.inl rfl)).reachable,
    (reachableWith_splitState4 (.inr rfl)).reachable, hx, hx', ?_⟩
  intro hagree
  rw [hagree.balance, hname'] at hname
  cases hname

/-- A run that has heard one of the transactions, and one that has heard none yet, agree on the
block that both have. -/
theorem agree_of_reachable_split : Agree (splitState4 none) splitState3 splitPage1.digest := by
  refine agree_of_reachable (collisionFree_tableTip5 _ _) ?_ (reachableWith_splitState4 (.inl rfl))
    (reachableWith_splitState3 _) (by decide +kernel) (by decide +kernel)
  intro raw raw' hraw hraw' _
  rw [hraw, hraw']

end Split

end Nockchain.Consensus
