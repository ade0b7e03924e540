import Nockchain.Proofs.Consensus.HeaviestChain

/-!
# `Nockchain.Proofs.Consensus.Work`: the first heaviest block

`update-heaviest` replaces the heaviest block by a strictly heavier one. What it
compares is the work that a page states, which `validate-page-without-txs` and
`check-genesis` hold against the parent.

`Accepted cfg log heights x` says that a node has got to `x` and has accepted the pages
of `log` on the way, in that order, and heard pages of the given heights.
`first_heaviest` is about all such runs: the heaviest block is the first page of the
log that no other outweighs, and the work of each page is the sum of what the targets
on its chain stand for.
-/

set_option autoImplicit false

namespace Nockchain.TxEngine.Bignum

open Lib

theorem merge_rip {k a : Nat} (h : a < 2 ^ (32 * k)) : merge ⟨rip k a⟩ = a := by
  induction k generalizing a with
  | zero =>
    have hzero : a = 0 := by simpa using h
    simp [rip, merge, hzero]
  | succ k ih =>
    by_cases ha : a = 0
    · simp [rip, merge, ha]
    have hlt : a / 2 ^ 32 < 2 ^ (32 * k) := by
      rwa [Nat.div_lt_iff_lt_mul (by decide), ← pow_add]
    have hmerge : merge ⟨rip (k + 1) a⟩ = a % 2 ^ 32 % 2 ^ 32 +
        2 ^ 32 * merge ⟨rip k (a / 2 ^ 32)⟩ := by
      simp only [rip, if_neg ha]
      rfl
    rw [hmerge, ih hlt, Nat.mod_mod, Nat.mod_add_div]

/-- The chunks of a number stand for it. -/
theorem merge_chunk (a : Nat) : (chunk a).merge = a := by
  by_cases ha : a = 0
  · simp [chunk, merge, ha]
  · rw [chunk, if_neg ha]
    refine merge_rip (lt_of_lt_of_le (lt_two_pow_width a) ?_)
    exact Nat.pow_le_pow_right (by decide) (by omega)

end Nockchain.TxEngine.Bignum

namespace Nockchain.Consensus

open Lib TxEngine

section Work

variable [Tip5]

/-- The work that a target stands for. -/
def targetWork (bc : BlockchainConstants) (pag : Page) : Nat := (Page.computeWork bc pag.target).merge

namespace State

/-- The pages from a block down to a genesis block. -/
inductive Lineage (c : State) : Digest → List Page → Prop where
  | genesis {x : Digest} {pag : Page} (hget : c.blocks.get x = some pag) (hheight : pag.height = 0) :
      Lineage c x [pag]
  | child {x : Digest} {pag : Page} {l : List Page} (hget : c.blocks.get x = some pag)
      (hheight : pag.height ≠ 0) (h : Lineage c pag.parent l) : Lineage c x (pag :: l)

/-- A page states the work of its parent and its own. -/
def Weighs (bc : BlockchainConstants) (c : State) (pag : Page) : Prop :=
  if pag.height = 0 then pag.accumulatedWork = .chunk (targetWork bc pag)
  else ∃ par, c.blocks.get pag.parent = some par ∧ pag.height = par.height + 1 ∧
    pag.accumulatedWork = .chunk (par.accumulatedWork.merge + targetWork bc pag)

/-- The pages of the chain and those that wait state their work. -/
def Weighed (bc : BlockchainConstants) (c : State) : Prop :=
  ∀ x pag, c.BlockAt x pag → c.Weighs bc pag

theorem Weighs.mono {bc : BlockchainConstants} {c c' : State} {pag : Page} (h : c.Weighs bc pag)
    (hkeeps : ∀ y page, c.blocks.get y = some page → c'.blocks.get y = some page) :
    c'.Weighs bc pag := by
  unfold Weighs at h ⊢
  split
  case isTrue hzero => rwa [if_pos hzero] at h
  case isFalse hne =>
    rw [if_neg hne] at h
    obtain ⟨par, hpar, hrest⟩ := h
    exact ⟨par, hkeeps _ _ hpar, hrest⟩

/-- The work of a page is the sum over its chain. -/
theorem Weighed.lineage {bc : BlockchainConstants} {c : State} (h : c.Weighed bc) {x : Digest}
    {pag : Page} (hget : c.blocks.get x = some pag) :
    ∃ l, c.Lineage x l ∧ pag.accumulatedWork = .chunk (l.map (targetWork bc)).sum := by
  -- By induction on the height: the parent is one below.
  generalize hn : pag.height = n
  induction n generalizing x pag with
  | zero =>
    have hweighs := h x pag (.inl hget)
    rw [Weighs, if_pos hn] at hweighs
    exact ⟨[pag], .genesis hget hn, by simpa using hweighs⟩
  | succ n ih =>
    have hne : pag.height ≠ 0 := by omega
    have hweighs := h x pag (.inl hget)
    rw [Weighs, if_neg hne] at hweighs
    obtain ⟨par, hpar, hheight, hwork⟩ := hweighs
    obtain ⟨l, hl, hsum⟩ := ih hpar (by omega)
    refine ⟨pag :: l, .child hget hne hl, ?_⟩
    rw [hwork, hsum, Bignum.merge_chunk, List.map_cons, List.sum_cons, Nat.add_comm]

variable [Pow] [Cheetah] {cfg : Config} {c c' : State}

theorem Weighed.of_reachable (h : Reachable cfg c) : c.Weighed cfg.bc := by
  intro x pag hat
  refine h.blockAt_of (P := fun c pag => c.Weighs cfg.bc pag) ?_ ?_ ?_ x pag hat
  · intro c c' pag hkeeps hpag
    exact hpag.mono hkeeps
  · intro c pag hgenesis
    rw [Weighs, if_pos hgenesis.height, hgenesis.heaviness, targetWork, Page.computeWork,
      Bignum.merge_chunk]
  · intro c pag heard
    obtain ⟨par, nowSecs, hpage⟩ := heard.pageChecked
    rw [Weighs, if_neg (by rw [hpage.height]; exact Nat.succ_ne_zero _)]
    exact ⟨par, hpage.parent, hpage.height, hpage.heaviness⟩

end State

/-! ### The log of a run -/

variable [Pow] [Cheetah] {cfg : Config} {c c' : State} {d d' : Derived} {log : List Page}
  {heights : List Nat}

/-- A node has got to a state from the empty one, has accepted these pages, in this order, and has
heard blocks of these heights, the last one first. -/
inductive Accepted (cfg : Config) : List Page → List Nat → State × Derived → Prop where
  | init : Accepted cfg [] [] (default, default)
  | mempool {log : List Page} {heights : List Nat} {c c' : State} {d : Derived}
      (hx : Accepted cfg log heights (c, d)) (h : Step cfg c c') (chain : c'.chain = c.chain)
      (heaviest : c'.heaviestBlock = c.heaviestBlock) : Accepted cfg log heights (c', d)
  | highest {log : List Page} {heights : List Nat} {c : State} {d : Derived} {height : Nat}
      (hx : Accepted cfg log heights (c, d)) :
      Accepted cfg log (height :: heights) (c, d.updateHighest height)
  | accept {log : List Page} {heights : List Nat} {c c' : State} {d d' : Derived} {pag : Page}
      {acc : TxAcc} (hx : Accepted cfg log heights (c, d)) (enters : Enters cfg c pag acc)
      (h : AcceptedBlock cfg c d pag acc c' d') :
      Accepted cfg (log ++ [pag]) (pag.height :: heights) (c', d')

theorem Accepted.turns {x y : State × Derived} (hx : Accepted cfg log heights x)
    (h : Turns cfg x y) : ∃ more heights', Accepted cfg (log ++ more) heights' y := by
  induction h with
  | refl => exact ⟨[], heights, by simpa using hx⟩
  | tail _ hturn ih =>
    obtain ⟨more, heights', hmore⟩ := ih
    cases hturn with
    | mempool h hchain hheaviest => exact ⟨more, heights', hmore.mempool h hchain hheaviest⟩
    | @highest _ _ height => exact ⟨more, height :: heights', hmore.highest⟩
    | @accept _ _ _ _ pag _ henters h =>
      refine ⟨more ++ [pag], pag.height :: heights', ?_⟩
      rw [← List.append_assoc]
      exact hmore.accept henters h

/-- Every reachable kernel has such logs. -/
theorem Kernel.Reachable.accepted [Curve] {k : Kernel} (h : Kernel.Reachable cfg k) :
    ∃ log heights, Accepted cfg log heights (k.c, k.d) :=
  Accepted.init.turns h.takes

theorem Accepted.reachable {x : State × Derived} (h : Accepted cfg log heights x) :
    Reachable cfg x.1 := by
  induction h with
  | init => exact .init
  | mempool _ h _ _ ih => exact ih.step h
  | highest _ ih => exact ih
  | accept _ henters h ih => exact ih.steps (Turn.accept henters h).steps

/-- The block is the first of the log that no other outweighs. -/
def First (log : List Page) (heaviest : Option Digest) : Prop :=
  ∃ before pag after, log = before ++ pag :: after ∧ heaviest = some pag.digest ∧
    (∀ p ∈ before, p.accumulatedWork.merge < pag.accumulatedWork.merge) ∧
    ∀ p ∈ after, p.accumulatedWork.merge ≤ pag.accumulatedWork.merge

namespace First

variable {heaviest : Option Digest} {pag : Page}

omit [TxEngine.Pow] [Cheetah]

theorem heavier (h : ∀ p ∈ log, p.accumulatedWork.merge < pag.accumulatedWork.merge) :
    First (log ++ [pag]) (some pag.digest) :=
  ⟨log, pag, [], rfl, rfl, h, by simp⟩

theorem lighter {old : Page} (h : First log (some old.digest)) (hold : ∀ p ∈ log, p.digest =
    old.digest → p = old) (hle : pag.accumulatedWork.merge ≤ old.accumulatedWork.merge) :
    First (log ++ [pag]) (some old.digest) := by
  obtain ⟨before, p, after, rfl, hp, hbefore, hafter⟩ := h
  obtain rfl : p = old := hold p (by simp) (Option.some.inj hp).symm
  refine ⟨before, p, after ++ [pag], by simp, rfl, hbefore, fun q hq => ?_⟩
  rcases List.mem_append.1 hq with hq | hq
  · exact hafter q hq
  · rwa [List.mem_singleton.1 hq]

/-- No page of the log is heavier. -/
theorem le (h : First log (some pag.digest)) (hpag : ∀ p ∈ log, p.digest = pag.digest → p = pag) :
    ∀ p ∈ log, p.accumulatedWork.merge ≤ pag.accumulatedWork.merge := by
  obtain ⟨before, q, after, rfl, hq, hbefore, hafter⟩ := h
  obtain rfl : q = pag := hpag q (by simp) (Option.some.inj hq).symm
  intro p hp
  rcases List.mem_append.1 hp with hp | hp
  · exact (hbefore p hp).le
  · rcases List.mem_cons.1 hp with rfl | hp
    · exact le_rfl
    · exact hafter p hp

end First

/-- The chain has the pages of the log, and the first heaviest of them at its head. -/
structure Logged (c : State) (log : List Page) : Prop where
  mem_iff : ∀ x pag, c.blocks.get x = some pag ↔ pag ∈ log ∧ pag.digest = x
  first : log = [] ∧ c.heaviestBlock = none ∨ First log c.heaviestBlock

omit [TxEngine.Pow] [Cheetah] in
/-- A digest names one page of the log. -/
theorem Logged.eq_of_digest (h : Logged c log) {p q : Page} (hp : p ∈ log) (hq : q ∈ log)
    (hdigest : p.digest = q.digest) : p = q := by
  have hp' := (h.mem_iff q.digest p).2 ⟨hp, hdigest⟩
  have hq' := (h.mem_iff q.digest q).2 ⟨hq, rfl⟩
  exact Option.mem_unique hp' hq'

/-- An accepted page ends the log, and is the new head only if it is heavier than the first
heaviest. -/
theorem Logged.accept (hlogged : Logged c log) {pag : Page} {acc : TxAcc}
    (henters : Enters cfg c pag acc) (h : AcceptedBlock cfg c d pag acc c' d') :
    Logged c' (log ++ [pag]) := by
  obtain ⟨hfresh, hblocks, hheaviest⟩ := h.heaviest_cases henters
  have hnew : ∀ p ∈ log, p.digest ≠ pag.digest := by
    intro p hp heq
    rw [(hlogged.mem_iff _ p).2 ⟨hp, heq⟩] at hfresh
    cases hfresh
  constructor
  · intro x page
    rw [hblocks, List.mem_append, List.mem_singleton]
    split_ifs with hx
    · subst hx
      constructor
      · intro hpage
        cases hpage
        exact ⟨.inr rfl, rfl⟩
      · intro hpage
        rcases hpage.1 with hmem | rfl
        · exact absurd hpage.2 (hnew page hmem)
        · rfl
    rw [hlogged.mem_iff]
    constructor
    · exact fun hpage => ⟨.inl hpage.1, hpage.2⟩
    · intro hpage
      rcases hpage.1 with hmem | rfl
      · exact ⟨hmem, hpage.2⟩
      · exact absurd hpage.2.symm hx
  · right
    rcases hheaviest with ⟨hnone, hpag⟩ | ⟨y, old, hy, hold, hpag⟩
    -- Without a heaviest block the log was empty.
    · rcases hlogged.first with ⟨rfl, -⟩ | ⟨_, _, _, -, hsome, -, -⟩
      · rw [hpag]
        exact First.heavier (by simp)
      · rw [hnone] at hsome
        cases hsome
    · -- The heaviest block so far is in the log, so it is not the page that was fresh.
      have hfirst : First log (some y) := by
        rcases hlogged.first with ⟨-, hnone⟩ | hfirst
        · rw [hnone] at hy
          cases hy
        · rwa [hy] at hfirst
      obtain ⟨tip, htip, rfl⟩ : ∃ tip ∈ log, tip.digest = y := by
        obtain ⟨before, tip, after, rfl, htip, -, -⟩ := hfirst
        exact ⟨tip, by simp, (Option.some.inj htip).symm⟩
      obtain rfl : old = tip := by
        rw [hblocks, if_neg (hnew tip htip), (hlogged.mem_iff _ tip).2 ⟨htip, rfl⟩] at hold
        exact (Option.some.inj hold).symm
      have honly : ∀ p ∈ log, p.digest = old.digest → p = old := fun p hp =>
        hlogged.eq_of_digest hp htip
      rw [hpag]
      split
      case isTrue hlt => exact First.heavier fun p hp => lt_of_le_of_lt (hfirst.le honly p hp) hlt
      case isFalse hle => exact hfirst.lighter honly (not_lt.1 hle)

theorem Accepted.logged {x : State × Derived} (h : Accepted cfg log heights x) : Logged x.1 log := by
  induction h with
  | init => exact ⟨fun x pag => by simp [show (default : State).blocks.get x = none from rfl],
      .inl ⟨rfl, rfl⟩⟩
  | @mempool _ _ c c' _ _ _ hchain hheaviest ih =>
    have hblocks : c'.blocks = c.blocks := congrArg State.Chain.blocks hchain
    exact ⟨hblocks ▸ ih.mem_iff, hheaviest ▸ ih.first⟩
  | highest _ ih => exact ⟨ih.mem_iff, ih.first⟩
  | accept _ henters h ih => exact ih.accept henters h

/-- In every run of a node that has accepted a block, the heaviest block is the first of those
accepted that no other outweighs; and the work of every accepted block is the sum of the work of the
targets on its chain. -/
theorem first_heaviest (h : Accepted cfg log heights (c, d)) (hne : log ≠ []) :
    First log c.heaviestBlock ∧ (∀ x pag, c.blocks.get x = some pag ↔ pag ∈ log ∧ pag.digest = x) ∧
      ∀ pag ∈ log, ∃ l, c.Lineage pag.digest l ∧
        pag.accumulatedWork.merge = (l.map (targetWork cfg.bc)).sum := by
  have hlogged : Logged c log := h.logged
  refine ⟨hlogged.first.resolve_left fun hnil => hne hnil.1, hlogged.mem_iff, fun pag hpag => ?_⟩
  obtain ⟨l, hl, hsum⟩ := (State.Weighed.of_reachable h.reachable).lineage
    ((hlogged.mem_iff _ pag).2 ⟨hpag, rfl⟩)
  exact ⟨l, hl, by rw [hsum, Bignum.merge_chunk]⟩

end Work

/-! ### A run with a fork -/

section Fork

attribute [local instance] shorterTip5 shorterPow shorterCheetah shorterCurve

/-- In the run of the slow and the fast chain, the heaviest block is the first heaviest. -/
theorem first_heaviest_fork : ∃ (k : Kernel) (log : List Page)
    (heights : List Nat), Accepted shorterConfig log heights (k.c, k.d) ∧ log ≠ [] ∧
      First log (some fastPage2.digest) := by
  obtain ⟨k, hrun, hend⟩ := exists_shorterEnd
  have hk : Kernel.Reachable shorterConfig k := .pokes .init hrun
  obtain ⟨log, heights, hlog⟩ := hk.accepted
  have hne : log ≠ [] := by
    rintro rfl
    have hmem := (hlog.logged.mem_iff _ fastPage2).1 hend.2.1
    simp at hmem
  refine ⟨k, log, heights, hlog, hne, ?_⟩
  rw [← hend.1]
  exact (first_heaviest hlog hne).1

end Fork

end Nockchain.Consensus
