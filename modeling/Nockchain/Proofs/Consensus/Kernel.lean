import Nockchain.Consensus.Kernel
import Nockchain.Proofs.Consensus.Mempool

/-!
# `Nockchain.Proofs.Consensus.Kernel`: what a poke does to the consensus state

A poke changes the consensus state, and what is derived from it, in turns: it
moves a transaction or a pending block, raises the greatest height heard, or
accepts a block. The miner acts after every accepted block, and between them.
`moves_poke` says that a poke does nothing else. Since each turn is a run of
`Step`s, the consensus state of a reachable kernel is reachable
(`Kernel.Reachable.consensus`), and what holds along every run of `Step`s holds
in the kernel.
-/

set_option autoImplicit false

namespace Nockchain.Consensus

open Lib TxEngine State Option
open Relation (ReflTransGen)

variable [Tip5] [Pow] [Cheetah] {cfg : Config}

/-! ### Turns -/

/-- A page that the kernel may accept in `c`: a genesis block, or a page that was heard and whose
transactions are valid. -/
inductive Enters (cfg : Config) (c : State) (pag : Page) : TxAcc → Prop where
  | genesis {btcHash : Option Digest} (fresh : c.pendingBlocks.get pag.digest = none)
      (heard : checkGenesis cfg pag btcHash = some true) : Enters cfg c pag default
  | page {acc : TxAcc}
      (heard : Heard cfg c pag ∨ ∃ heardAt, c.pendingBlocks.get pag.digest = some (pag, heardAt))
      (valid : c.validatePageWithTxs cfg.bc pag = some (.ok acc)) : Enters cfg c pag acc

/-- `accept-block`, as it changes the consensus state and what is derived from it: garbage is
collected only for a new heaviest block. -/
structure AcceptedBlock (cfg : Config) (c : State) (d : Derived) (pag : Page) (acc : TxAcc)
    (c' : State) (d' : Derived) : Prop where
  consensus : ∃ entered heavy, c.acceptPage cfg.bc pag acc = some entered ∧
    entered.updateHeaviest pag = some heavy ∧
      (heavy.heaviestBlock = entered.heaviestBlock ∧ c' = heavy ∨
        ∃ retain, heavy.garbageCollect retain = some c')
  derived : d.update c' pag = some d'

/-- One turn of the kernel. -/
inductive Turn (cfg : Config) : State × Derived → State × Derived → Prop where
  | mempool {c c' : State} {d : Derived} (h : Step cfg c c') (chain : c'.chain = c.chain)
      (heaviest : c'.heaviestBlock = c.heaviestBlock) : Turn cfg (c, d) (c', d)
  | highest {c : State} {d : Derived} {height : Nat} :
      Turn cfg (c, d) (c, d.updateHighest height)
  | accept {c c' : State} {d d' : Derived} {pag : Page} {acc : TxAcc}
      (enters : Enters cfg c pag acc) (h : AcceptedBlock cfg c d pag acc c' d') :
      Turn cfg (c, d) (c', d')

/-- Any number of turns. -/
abbrev Turns (cfg : Config) : State × Derived → State × Derived → Prop := ReflTransGen (Turn cfg)

variable {c c' : State} {pag : Page}

variable {acc : TxAcc}

theorem Enters.block_of_accepted
    (h : Enters cfg c pag acc) (haccepted : State.AcceptedPage cfg.bc c pag acc c') :
    c'.blocks.get pag.digest = some pag := by
  refine haccepted.block fun v hv => ?_
  cases h with
  | genesis fresh _ => rw [fresh] at hv; cases hv
  | page heard _ =>
    rcases heard with heard | ⟨heardAt, hget⟩
    · have hnone := (Bool.or_eq_false_iff.1 heard.fresh).2
      rw [ZMap.has_eq_false] at hnone
      rw [hnone] at hv
      cases hv
    · rw [hget] at hv
      cases hv
      rfl

theorem Enters.block {c : State} (h : Enters cfg c pag acc)
    {c' : State} (hc' : c.acceptPage cfg.bc pag acc = some c') :
    c'.blocks.get pag.digest = some pag :=
  h.block_of_accepted (acceptedPage_of_eq_some hc')

theorem Enters.step {c : State} (h : Enters cfg c pag acc) {c' : State}
    (hc' : c.acceptPage cfg.bc pag acc = some c') : Step cfg c c' := by
  cases h with
  | genesis _ heard => exact .acceptGenesis heard hc'
  | page heard valid => exact .acceptPage heard valid hc'

/-- A turn is a run of steps. -/
theorem Turn.steps {x y : State × Derived} (h : Turn cfg x y) :
    ReflTransGen (Step cfg) x.1 y.1 := by
  cases h with
  | mempool h _ _ => exact .single h
  | highest => exact .refl
  | accept enters h =>
    obtain ⟨entered, heavy, hentered, hheavy, hlast⟩ := h.consensus
    have hrun : ReflTransGen (Step cfg) _ heavy :=
      .tail (.single (enters.step hentered)) (.updateHeaviest (enters.block hentered) hheavy)
    rcases hlast with ⟨-, rfl⟩ | ⟨retain, hgc⟩
    · exact hrun
    · exact hrun.tail (.garbageCollect hgc)

theorem Turns.steps {x y : State × Derived} (h : Turns cfg x y) :
    ReflTransGen (Step cfg) x.1 y.1 := by
  induction h with
  | refl => exact .refl
  | tail _ hturn ih => exact ih.trans hturn.steps

theorem State.Bookkeeping.steps (hc : c.Bookkeeping)
    (h : ReflTransGen (Step cfg) c c') : c'.Bookkeeping := by
  induction h with
  | refl => exact hc
  | tail _ hstep ih => exact ih.step hstep

theorem Reachable.steps (hc : Reachable cfg c) (h : ReflTransGen (Step cfg) c c') :
    Reachable cfg c' := by
  induction h with
  | refl => exact hc
  | tail _ hstep ih => exact ih.step hstep

/-- What holds of the empty state, and is kept by the steps that leave the chain alone and by every
page that enters it, holds after any turns. -/
theorem Turns.induction {Q : State → Prop} (hinit : Q default)
    (hmempool : ∀ c c', Reachable cfg c → Q c → Shift cfg c c' → c'.chain = c.chain → Q c')
    (henter : ∀ c c' pag acc, Reachable cfg c → Q c → Enters cfg c pag acc →
      State.AcceptedPage cfg.bc c pag acc c' → Q c')
    {y : State × Derived} (h : Turns cfg default y) : Q y.1 := by
  induction h with
  | refl => exact hinit
  | tail hrun hturn ih =>
    have hc := Reachable.init.steps (Turns.steps hrun)
    cases hturn with
    | mempool hstep hchain _ => exact hmempool _ _ hc ih hstep.shift hchain
    | highest => exact ih
    | accept enters haccepted =>
      obtain ⟨entered, heavy, hentered, hheavy, hlast⟩ := haccepted.consensus
      have hstep := enters.step hentered
      have hheavier : Step cfg entered heavy := .updateHeaviest (enters.block hentered) hheavy
      have henters := henter _ _ _ _ hc ih enters (acceptedPage_of_eq_some hentered)
      have hheaviest := hmempool _ _ (hc.step hstep) henters hheavier.shift
        (chain_updateHeaviest hheavy)
      rcases hlast with ⟨-, rfl⟩ | ⟨retain, hgc⟩
      · exact hheaviest
      · exact hmempool _ _ ((hc.step hstep).step hheavier) hheaviest
          (Step.garbageCollect hgc).shift (chain_garbageCollect hgc)

/-! ### The arms of the kernel -/

omit [TxEngine.Pow] [Cheetah] in
/-- A page that misses no transaction does not become pending. -/
theorem State.eq_of_addPendingBlock_nil (h : c.addPendingBlock pag = some ([], c')) : c' = c := by
  obtain ⟨-, -, ⟨-, rfl⟩ | ⟨hne, hnil, -⟩⟩ := addPendingBlock_eq_some h
  · rfl
  · refine absurd (ZSet.ext fun txId => ?_) hne
    rw [← ZSet.mem_tap, ← hnil]
    simp

namespace Kernel

variable [Curve] {k k' : Kernel} {wir : Wire} {now : Nat} {effs : List Effect}

/-- What the kernel does to the state of the miner. -/
inductive Act where
  | setKeys (v0 : List (Sig × Nat)) (v1 : List (Digest × Nat))
  | enable (mine : Bool)
  | genesis (now : Nat) (btcHash : Digest) (msg : List Nat)
  | setPow (prf : Noun)
  | heardNewBlock (now : Nat)
  | updateCandidateBlock (now : Nat)
  | addTxsToCandidate

/-- The state of the miner after an act, in a consensus state. -/
def Act.does (cfg : Config) (c : State) (m : Mining) : Act → Option Mining
  | .setKeys v0 v1 => do
    let m ← m.setV0Shares cfg.bc v0
    m.setShares v1
  | .enable mine => some { m with mining := mine }
  | .genesis now btcHash msg => some { m with candidateBlock := newGenesis cfg now btcHash msg }
  | .setPow prf => m.setPow prf
  | .heardNewBlock now => m.heardNewBlock cfg.bc c now
  | .updateCandidateBlock now => (m.updateCandidateBlock cfg.bc c now).map Prod.snd
  | .addTxsToCandidate => m.addTxsToCandidate cfg.bc c

/-- One move of the kernel: a turn, or an act of the miner that meets a condition. Raw transactions
are dropped only for a new heaviest block, of which the miner then hears. -/
inductive Move (cfg : Config) (fair : State → Mining → Act → Prop) : Kernel → Kernel → Prop where
  | mempool {k : Kernel} {c : State} (h : Step cfg k.c c) (chain : c.chain = k.c.chain)
      (heaviest : c.heaviestBlock = k.c.heaviestBlock)
      (keeps : ∀ txId v, k.c.rawTxs.get txId = some v → c.rawTxs.get txId = some v) :
      Move cfg fair k { k with c }
  | highest {k : Kernel} {height : Nat} : Move cfg fair k { k with d := k.d.updateHighest height }
  | accept {k : Kernel} {c : State} {d : Derived} {m : Mining} {pag : Page} {acc : TxAcc}
      {now : Nat} (enters : Enters cfg k.c pag acc)
      (accepted : AcceptedBlock cfg k.c k.d pag acc c d)
      (keeps : c.heaviestBlock = k.c.heaviestBlock → c.rawTxs = k.c.rawTxs)
      (hfair : fair c k.m (.heardNewBlock now))
      (h : (Act.heardNewBlock now).does cfg c k.m = some m) : Move cfg fair k { k with c, d, m }
  | act {k : Kernel} {m : Mining} {a : Act} (hfair : fair k.c k.m a)
      (h : a.does cfg k.c k.m = some m) : Move cfg fair k { k with m }
  | command {k : Kernel} {init : Bool} {retain : Option Nat} {btcData : Option (Option Digest)} :
      Move cfg fair k { k with init, retain, btcData }

/-- Any number of moves. -/
abbrev Moves (cfg : Config) : Kernel → Kernel → Prop :=
  ReflTransGen (Move cfg fun _ _ _ => True)

/-- The turns that a kernel takes. -/
def Takes (cfg : Config) (k k' : Kernel) : Prop := Turns cfg (k.c, k.d) (k'.c, k'.d)

theorem Moves.takes (h : Moves cfg k k') : Takes cfg k k' := by
  induction h with
  | refl => exact .refl
  | tail _ hmove ih =>
    cases hmove with
    | mempool h chain heaviest _ => exact ih.tail (.mempool h chain heaviest)
    | highest => exact ih.tail .highest
    | accept enters accepted _ _ _ => exact ih.tail (.accept enters accepted)
    | act _ _ | command => exact ih

variable {fair : State → Mining → Act → Prop} {raw : RawTx}

theorem Move.addRawTx {c : State} {ready : List Digest} (heard : HeardTx raw)
    (h : k.c.addRawTx raw = some (ready, c)) : Move cfg fair k { k with c } :=
  .mempool (.addRawTx heard h) (chain_addRawTx h) (by rw [frame_addRawTx h])
    fun _ _ hget => get_rawTxs_addRawTx h hget

variable {pag : Page}

theorem Move.addPendingBlock {c : State} {missing : List Digest} (heard : Heard cfg k.c pag)
    (h : k.c.addPendingBlock pag = some (missing, c)) : Move cfg fair k { k with c } :=
  .mempool (.addPendingBlock heard h) (chain_addPendingBlock h)
    (by rw [frame_addPendingBlock h]) fun _ _ hget => by
      rwa [frame_addPendingBlock h]

theorem Move.rejectPendingBlock {c : State} {blockId : Digest}
    (h : k.c.rejectPendingBlock blockId = some c) : Move cfg fair k { k with c } :=
  .mempool (.rejectPendingBlock h) (chain_rejectPendingBlock h)
    (by rw [frame_rejectPendingBlock h]) fun _ _ hget => by
      rwa [frame_rejectPendingBlock h]

omit [TxEngine.Pow] [Curve] in
/-- Inverting `accept-block`: the consensus state, the derived state and the miner in turn. -/
theorem acceptedBlock_of_eq_some (h : k.acceptBlock cfg now pag acc = some (effs, k')) :
    ∃ c d m, k' = { k with c, d, m } ∧ AcceptedBlock cfg k.c k.d pag acc c d ∧
      (c.heaviestBlock = k.c.heaviestBlock → c.rawTxs = k.c.rawTxs) ∧
      k.m.heardNewBlock cfg.bc c now = some m := by
  simp only [acceptBlock, bind_eq_some, pure_def] at h
  obtain ⟨entered, hentered, -, -, heavy, hheavy, c', hgc, effs', -, regossip, -, m, hm, d', hd',
    h⟩ := h
  have hk : k' = { k with c := c', d := d', m } := by
    split at h
    · obtain ⟨mined, -, h⟩ := bind_eq_some.1 h
      cases h
      rfl
    · cases h
      rfl
  obtain ⟨hheaviest, hraws⟩ := mempool_acceptPage hentered
  unfold collect at hgc
  split at hgc
  case isTrue hnew =>
    refine ⟨c', d', m, hk, ⟨⟨entered, heavy, hentered, hheavy, .inr ⟨_, hgc⟩⟩, hd'⟩, ?_, hm⟩
    intro hsame
    rw [heaviestBlock_garbageCollect hgc, ← hheaviest] at hsame
    exact absurd hsame.symm (of_decide_eq_true hnew)
  case isFalse hsame =>
    cases hgc
    rw [decide_eq_true_eq, not_not] at hsame
    refine ⟨heavy, d', m, hk,
      ⟨⟨entered, heavy, hentered, hheavy, .inl ⟨hsame.symm, rfl⟩⟩, hd'⟩, fun _ => ?_, hm⟩
    rwa [frame_updateHeaviest hheavy]

theorem moves_acceptBlock (henters : Enters cfg k.c pag acc)
    (h : k.acceptBlock cfg now pag acc = some (effs, k')) : Moves cfg k k' := by
  obtain ⟨c, d, m, rfl, haccepted, hkeeps, hm⟩ := acceptedBlock_of_eq_some h
  exact .single (.accept henters haccepted hkeeps trivial hm)

theorem moves_processBlockWithTxs {badBlockEffs : List Effect} (heard : Heard cfg k.c pag ∨
      ∃ heardAt, k.c.pendingBlocks.get pag.digest = some (pag, heardAt))
    (h : k.processBlockWithTxs cfg now pag badBlockEffs = some (effs, k')) : Moves cfg k k' := by
  simp only [processBlockWithTxs, bind_eq_some] at h
  obtain ⟨result, hresult, h⟩ := h
  split at h
  · exact moves_acceptBlock (.page heard hresult) h
  · obtain ⟨c', hc', h⟩ := bind_eq_some.1 h
    cases h
    exact .single (.rejectPendingBlock hc')

/-- Each ready block stands among the pending ones under its digest, until it is accepted or
rejected; the books of the state that the earlier ones leave are in order. -/
theorem moves_processReadyBlocks {work : List Digest} (hbooks : k.c.Bookkeeping)
    (h : k.processReadyBlocks cfg now work = some (effs, k')) : Moves cfg k k' := by
  suffices hinv : k'.c.Bookkeeping ∧ Moves cfg k k' from hinv.2
  refine (Run.of_foldlM h).invariant
    (fun x => x.2.c.Bookkeeping ∧ Moves cfg k x.2) ?_ ⟨hbooks, .refl⟩
  intro x bid y _ hstep hx
  simp only [bind_eq_some, pure_eq_some] at hstep
  obtain ⟨⟨pag, heardAt⟩, hget, ⟨newEffs, k1⟩, hprocess, rfl⟩ := hstep
  have hdigest : pag.digest = bid := hx.1.digest bid pag (.inr ⟨heardAt, hget⟩)
  have htakes := moves_processBlockWithTxs (.inr ⟨heardAt, hdigest ▸ hget⟩) hprocess
  refine ⟨?_, hx.2.trans htakes⟩
  exact hx.1.steps htakes.takes.steps

theorem moves_heardNeededTx (hbooks : k.c.Bookkeeping) (hbased : raw.isBased)
    (hid : raw.computeId = some raw.id)
    (h : k.heardNeededTx cfg wir now raw = some (effs, k')) : Moves cfg k k' := by
  simp only [heardNeededTx, bind_eq_some, pure_def] at h
  obtain ⟨valid, hvalid, h⟩ := h
  split at h
  · obtain ⟨c', hc', liar, -, h⟩ := by simpa only [bind_eq_some] using h
    cases h
    exact (ZSet.run_of_repM hc').invariant (fun c => Moves cfg k { k with c })
      (fun _ _ _ _ hstep hb => hb.tail (.rejectPendingBlock hstep)) .refl
  case isFalse htrue =>
    obtain ⟨⟨work, c'⟩, hc', h⟩ := bind_eq_some.1 h
    rw [Bool.not_eq_true, Bool.not_eq_false'] at htrue
    have hadded : Moves cfg k { k with c := c' } :=
      .single (.addRawTx ⟨hbased, hid, htrue ▸ hvalid⟩ hc')
    exact hadded.trans (moves_processReadyBlocks (hbooks.addRawTx hc') h)

/-- A transaction that no block needs. -/
theorem moves_heardFreeTx (hbased : raw.isBased) (hid : raw.computeId = some raw.id)
    (h : k.heardFreeTx wir raw = some (effs, k')) : Moves cfg k k' := by
  simp only [heardFreeTx, bind_eq_some, pure_def] at h
  obtain ⟨inputs, -, h⟩ := h
  split at h
  · cases h
    exact .refl
  split at h
  · cases h
    exact .refl
  obtain ⟨valid, hvalid, h⟩ := bind_eq_some.1 h
  split at h
  · obtain ⟨liar, -, h⟩ := bind_eq_some.1 h
    cases h
    exact .refl
  case isFalse htrue =>
    obtain ⟨⟨work, c'⟩, hc', -, -, h⟩ := by simpa only [bind_eq_some] using h
    cases h
    rw [Bool.not_eq_true, Bool.not_eq_false'] at htrue
    exact .single (.addRawTx ⟨hbased, hid, htrue ▸ hvalid⟩ hc')

/-- A transaction is entered and the blocks that it completes are processed. -/
theorem moves_heardTx (hbooks : k.c.Bookkeeping)
    (h : k.heardTx cfg wir now raw = some (effs, k')) : Moves cfg k k' := by
  unfold heardTx at h
  split at h
  · cases h
    exact .refl
  split at h
  · obtain ⟨liar, -, h⟩ := bind_eq_some.1 h
    cases h
    exact .refl
  case isFalse hbased =>
    rw [Bool.not_eq_true, Bool.not_eq_false'] at hbased
    obtain ⟨id, hid, h⟩ := bind_eq_some.1 h
    split at h
    · obtain ⟨liar, -, h⟩ := bind_eq_some.1 h
      cases h
      exact .refl
    case isFalse heq =>
      rw [not_not] at heq
      rw [heq] at hid
      split at h
      · exact moves_heardNeededTx hbooks hbased hid h
      · exact moves_heardFreeTx hbased hid h

theorem moves_enterBlock {blockEffs : List Effect} (heard : Heard cfg k.c pag)
    (h : k.enterBlock cfg now pag blockEffs = some (effs, k')) : Moves cfg k k' := by
  simp only [enterBlock, bind_eq_some, pure_def] at h
  obtain ⟨⟨missing, c'⟩, hc', h⟩ := h
  have hentered : Moves cfg k { k with c := c', d := k.d.updateHighest pag.height } :=
    .tail (.single (.addPendingBlock heard hc')) .highest
  split at h
  · obtain ⟨heaviest, -, old, -, h⟩ := by simpa only [bind_eq_some] using h
    cases h
    exact hentered
  case isFalse hnil =>
    obtain rfl : missing = [] := not_not.1 hnil
    have hsame : c' = k.c := eq_of_addPendingBlock_nil hc'
    exact hentered.trans (moves_processBlockWithTxs (.inl (hsame ▸ heard)) h)

theorem moves_heardGenesisBlock
    (h : k.heardGenesisBlock cfg wir now pag = some (effs, k')) : Moves cfg k k' := by
  unfold heardGenesisBlock at h
  split at h
  · cases h
    exact .refl
  case isFalse hfresh =>
    rw [Bool.not_eq_true, Bool.or_eq_false_iff, ZMap.has_eq_false, ZMap.has_eq_false] at hfresh
    obtain ⟨btcHash, -, h⟩ := bind_eq_some.1 h
    obtain ⟨genesis, hgenesis, h⟩ := bind_eq_some.1 h
    split at h
    · obtain ⟨liar, -, h⟩ := bind_eq_some.1 h
      cases h
      exact .refl
    case isFalse htrue =>
      rw [Bool.not_eq_true, Bool.not_eq_false'] at htrue
      exact moves_acceptBlock (.genesis hfresh.2 (htrue ▸ hgenesis)) h

omit [Curve] in
/-- A page that `heard-block` enters has passed its checks; every other one leaves the state. -/
theorem heardBlock_cases (h : k.heardBlock cfg wir now pag = some (effs, k')) :
    k' = k ∨ k.heardGenesisBlock cfg wir now pag = some (effs, k') ∨
      Heard cfg k.c pag ∧ ∃ blockEffs, k.enterBlock cfg now pag blockEffs = some (effs, k') := by
  unfold heardBlock at h
  split at h
  · exact .inr (.inl h)
  rename_i hheight
  split at h
  · split at h
    · cases h
      exact .inl rfl
    · obtain ⟨missing, -, h⟩ := bind_eq_some.1 h
      cases h
      exact .inl rfl
  split at h
  · obtain ⟨old, -, h⟩ := bind_eq_some.1 h
    split at h
    · obtain ⟨peerId, -, h⟩ := bind_eq_some.1 h
      obtain ⟨missing, -, h⟩ := bind_eq_some.1 h
      cases h
      exact .inl rfl
    · cases h
      exact .inl rfl
  rename_i hparent
  split at h
  · cases h
    exact .inl rfl
  rename_i hfresh
  obtain ⟨digest, -, h⟩ := bind_eq_some.1 h
  split at h
  · obtain ⟨liar, -, h⟩ := bind_eq_some.1 h
    cases h
    exact .inl rfl
  obtain ⟨checked, hchecked, h⟩ := bind_eq_some.1 h
  split at h
  · cases h
    exact .inl rfl
  obtain ⟨pow, hpow, h⟩ := bind_eq_some.1 h
  split at h
  · cases h
    exact .inl rfl
  rename_i htrue
  rw [Bool.not_eq_true, Bool.not_eq_false'] at hparent htrue
  rw [Bool.not_eq_true] at hfresh
  exact .inr (.inr ⟨⟨hheight, hparent, hfresh, ⟨_, hchecked⟩, htrue ▸ hpow⟩, _, h⟩)

theorem moves_heardBlock (h : k.heardBlock cfg wir now pag = some (effs, k')) : Moves cfg k k' := by
  rcases heardBlock_cases h with rfl | hgenesis | ⟨heard, blockEffs, henter⟩
  · exact .refl
  · exact moves_heardGenesisBlock hgenesis
  · exact moves_enterBlock heard henter

theorem moves_doPow {prf : Noun} {dig : Nat} {bc : Digest}
    (h : k.doPow cfg now prf dig bc = some (effs, k')) : Moves cfg k k' := by
  obtain ⟨commit, -, h⟩ := bind_eq_some.1 h
  split at h
  · cases h
    exact .refl
  obtain ⟨target, -, h⟩ := bind_eq_some.1 h
  obtain ⟨-, -, h⟩ := bind_eq_some.1 h
  split at h
  · obtain ⟨m, hm, h⟩ := bind_eq_some.1 h
    have hset : Move cfg (fun _ _ _ => True) k { k with m } := .act (a := .setPow prf) trivial hm
    exact .head hset (moves_heardBlock h)
  · cases h
    exact .refl

theorem moves_doBorn (h : k.doBorn cfg = some (effs, k')) : Moves cfg k k' := by
  unfold doBorn at h
  dsimp only at h
  have hk : k' = { k with init := false } := by
    split at h
    · obtain ⟨btcData, -, h⟩ := bind_eq_some.1 h
      cases h
      rfl
    · obtain ⟨pag, -, h⟩ := bind_eq_some.1 h
      obtain ⟨mined, -, h⟩ := bind_eq_some.1 h
      cases h
      rfl
  rw [hk]
  exact .single .command

theorem moves_doEnableMining {mine : Bool} (h : k.doEnableMining cfg now mine = some k') :
    Moves cfg k k' := by
  have hset : Move cfg (fun _ _ _ => True) k { k with m := { k.m with mining := mine } } :=
    .act (a := .enable mine) trivial rfl
  unfold doEnableMining at h
  split at h
  · cases h
    exact .single hset
  split at h
  · cases h
    exact .refl
  split at h
  · cases h
    exact .single hset
  · obtain ⟨m, hm, h⟩ := bind_eq_some.1 h
    cases h
    exact .tail (.single hset) (.act (a := .heardNewBlock now) trivial hm)

theorem moves_doSetMiningKeys {v0 : List (Sig × Nat)} {v1 : List (Digest × Nat)}
    (h : k.doSetMiningKeys cfg v0 v1 = some k') : Moves cfg k k' := by
  simp only [doSetMiningKeys, bind_eq_some, pure_def] at h
  obtain ⟨m, hm, m', hm', h⟩ := h
  cases h
  have hset : Act.does cfg k.c k.m (.setKeys v0 v1) = some m' := by
    show (k.m.setV0Shares cfg.bc v0).bind _ = _
    rwa [hm]
  exact .single (.act trivial hset)

section Pokes

variable {cause : Cause}

/-- What is ignored while the node is set up. -/
theorem moves_of_init {x : Option (List Effect × Kernel)}
    (hx : x = some (effs, k') → Moves cfg k k')
    (h : (if k.init then some ([], k) else x) = some (effs, k')) : Moves cfg k k' := by
  split at h
  · cases h
    exact .refl
  · exact hx h

/-- Whatever the cause, a kernel changes by moves only. -/
theorem moves_handle (hbooks : k.c.Bookkeeping)
    (h : k.handle cfg wir now cause = some (effs, k')) : Moves cfg k k' := by
  cases cause with
  | heardBlock pag => exact moves_of_init moves_heardBlock h
  | heardTx raw => exact moves_of_init (moves_heardTx hbooks) h
  | heardElders oldest ids =>
    refine moves_of_init (fun h => ?_) h
    obtain ⟨effs', -, h⟩ := map_eq_some_iff.1 h
    cases h
    exact .refl
  | born =>
    obtain ⟨-, -, h⟩ := bind_eq_some.1 h
    exact moves_doBorn h
  | pow prf dig bc =>
    obtain ⟨-, -, h⟩ := bind_eq_some.1 h
    exact moves_of_init moves_doPow h
  | setMiningKeys v0 v1 =>
    obtain ⟨-, -, h⟩ := bind_eq_some.1 h
    obtain ⟨k1, hk1, h⟩ := bind_eq_some.1 h
    cases h
    exact moves_doSetMiningKeys hk1
  | enableMining mine =>
    obtain ⟨-, -, h⟩ := bind_eq_some.1 h
    obtain ⟨k1, hk1, h⟩ := bind_eq_some.1 h
    cases h
    exact moves_doEnableMining hk1
  | timer =>
    obtain ⟨-, -, h⟩ := bind_eq_some.1 h
    obtain ⟨effs', -, h⟩ := bind_eq_some.1 h
    cases h
    exact .refl
  | genesis btcHash msg =>
    obtain ⟨-, -, h⟩ := bind_eq_some.1 h
    cases h
    split
    -- The miner's own genesis block is a candidate, not a page that was heard.
    · have hset : Move cfg (fun _ _ _ => True) k
          { k with m := { k.m with candidateBlock := newGenesis cfg now btcHash msg } } :=
        .act (a := .genesis now btcHash msg) trivial rfl
      exact .tail (.single hset) .command
    · exact .refl
  | btcData btcHash =>
    obtain ⟨-, -, h⟩ := bind_eq_some.1 h
    cases h
    split
    · exact .single .command
    · exact .refl

/-- A poke changes the kernel in moves. -/
theorem moves_poke (hbooks : k.c.Bookkeeping)
    (h : k.poke cfg wir now cause = some (effs, k')) : Moves cfg k k' := by
  simp only [poke, bind_eq_some] at h
  obtain ⟨⟨effs1, k1⟩, hhandle, ⟨changed, m⟩, hm, h⟩ := h
  have hmoves : Moves cfg k k1 := moves_handle hbooks hhandle
  have hupdate : Act.does cfg k1.c k1.m (.updateCandidateBlock now) = some m := by
    show (k1.m.updateCandidateBlock cfg.bc k1.c now).map Prod.snd = _
    rw [hm]
    rfl
  have hk : k' = { k1 with m } := by
    split at h
    · cases h
      rfl
    · obtain ⟨target, -, commit, -, h⟩ := by simpa only [bind_eq_some] using h
      cases h
      rfl
  rw [hk]
  exact hmoves.tail (.act trivial hupdate)

/-- The consensus state of a reachable kernel is reachable. -/
theorem Reachable.consensus (h : Kernel.Reachable cfg k) : Consensus.Reachable cfg k.c := by
  induction h with
  | init => exact .init
  | poke _ hpoke ih => exact ih.steps (moves_poke (.of_reachable ih) hpoke).takes.steps

theorem Reachable.moves (h : Kernel.Reachable cfg k) : Moves cfg default k := by
  induction h with
  | init => exact .refl
  | poke hk hpoke ih => exact ih.trans (moves_poke (.of_reachable hk.consensus) hpoke)

theorem Reachable.takes (h : Kernel.Reachable cfg k) : Takes cfg default k := h.moves.takes

/-- Pokes one after the other, each at a time and from a wire. -/
def pokes (cfg : Config) (k : Kernel) (l : List (Wire × Nat × Cause)) : Option Kernel :=
  l.foldlM (fun k (wir, now, cause) => (k.poke cfg wir now cause).map Prod.snd) k

theorem Reachable.pokes (hk : Kernel.Reachable cfg k) {l : List (Wire × Nat × Cause)}
    (h : k.pokes cfg l = some k') : Kernel.Reachable cfg k' := by
  refine (Run.of_foldlM h).invariant (Kernel.Reachable cfg) (fun b x b' _ hstep hb => ?_) hk
  obtain ⟨⟨effs, k1⟩, hpoke, rfl⟩ := map_eq_some_iff.1 hstep
  exact .poke hb hpoke

end Pokes

end Kernel

end Nockchain.Consensus
