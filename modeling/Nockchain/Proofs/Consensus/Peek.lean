import Nockchain.Proofs.Consensus.Work

/-!
# `Nockchain.Proofs.Consensus.Peek`: when the peeks are snapshots

The peeks pair a block of the consensus state with the greatest height heard, which
`heard-block` raises for a page that still waits for its transactions, and for one on a
side chain. `consistent_iff_heights` says when the pairs agree: a node that has an
answer to give gives a consistent one if and only if it has heard no block above the
heaviest one.

The two facts behind it hold in every run: the height is the greatest that was heard
(`Accepted.highest_eq`), and the index has the heaviest block at its own height
(`Accepted.tipIndexed`).
-/

set_option autoImplicit false

namespace Nockchain.Consensus

open Lib TxEngine Kernel

section Peek

variable [Tip5] {k : Kernel} {c c' : State} {d d' : Derived}

/-! ### What a peek should answer -/

/-- A height, an accepted block of that height, and the notes of its balance that pass the test. -/
def State.Snapshot (c : State) (test : Nnote → Bool) : Nat × Digest × Balance → Prop
  | (height, blockId, notes) => ∃ pag bal, c.blocks.get blockId = some pag ∧ pag.height = height ∧
      c.balance.get blockId = some bal ∧
        ∀ name note, notes.get name = some note ↔ bal.get name = some note ∧ test note = true

/-- The heaviest block with its height. -/
def State.Tip (c : State) : Nat × Digest → Prop
  | (height, blockId) => c.heaviestBlock = some blockId ∧
      ∃ pag, c.blocks.get blockId = some pag ∧ pag.height = height

/-- All that the peeks answer is consistent. -/
structure Kernel.Consistent (k : Kernel) : Prop where
  byFirstName : ∀ firstName, ∀ answer ∈ k.balanceByFirstName firstName,
    k.c.Snapshot (fun note => note.firstName = firstName) answer
  byPubkey : ∀ pubkey, ∀ answer ∈ k.balanceByPubkey pubkey,
    k.c.Snapshot (spendableBy pubkey) answer
  heaviestChain : ∀ answer ∈ k.heaviestChainPeek, k.c.Tip answer

/-- What a balance peek answers. -/
theorem Kernel.balancePeek_eq {highest : Nat} {heaviest : Digest} {tip : Page} {bal : Balance}
    (hhighest : k.d.highestBlockHeight = some highest) (hheaviest : k.c.heaviestBlock = some heaviest)
    (htip : k.c.blocks.get heaviest = some tip) (hbal : k.c.balance.get heaviest = some bal)
    (test : Nnote → Bool) : k.balancePeek test = some (highest, heaviest,
      bal.rep (fun x (kept : Balance) => if test x.2 then kept.put x.1 x.2 else kept) ∅) := by
  simp [balancePeek, guard, hhighest, hheaviest, ZMap.has_eq_true.2 ⟨tip, htip⟩, hbal]

/-- A balance peek answers with snapshots if and only if the height that it gives is that of the
heaviest block. -/
theorem Kernel.snapshot_iff (test : Nnote → Bool) :
    (∀ answer ∈ k.balancePeek test, k.c.Snapshot test answer) ↔
      ∀ highest heaviest tip bal, k.d.highestBlockHeight = some highest →
        k.c.heaviestBlock = some heaviest → k.c.blocks.get heaviest = some tip →
          k.c.balance.get heaviest = some bal → highest = tip.height := by
  constructor
  · intro h highest heaviest tip bal hhighest hheaviest htip hbal
    obtain ⟨pag, _, hpag, hheight, -⟩ := h _ (balancePeek_eq hhighest hheaviest htip hbal test)
    rw [htip] at hpag
    rw [← hheight, Option.some.inj hpag]
  · intro h answer hanswer
    simp only [balancePeek, bind_eq_some, Option.mem_def, Option.pure_def] at hanswer
    obtain ⟨heaviest, hheaviest, _, hhas, bal, hbal, highest, hhighest, hanswer⟩ := hanswer
    obtain ⟨tip, htip⟩ : ∃ tip, k.c.blocks.get heaviest = some tip := by
      have hhas : k.c.blocks.has heaviest := by
        by_contra hnot
        simp [guard, hnot] at hhas
      exact ZMap.has_eq_true.1 hhas
    cases hanswer
    refine ⟨tip, bal, htip, (h highest heaviest tip bal hhighest hheaviest htip hbal).symm, hbal, ?_⟩
    intro name note
    rw [ZMap.get_rep_filter bal fun x => test x.2, Option.filter_eq_some_iff]

theorem Kernel.tip_iff : (∀ answer ∈ k.heaviestChainPeek, k.c.Tip answer) ↔
    ∀ highest y, k.d.highestBlockHeight = some highest → k.d.heaviestChain.get highest = some y →
      k.c.Tip (highest, y) := by
  constructor
  · intro h highest y hhighest hy
    exact h _ (by simp [heaviestChainPeek, hhighest, hy])
  intro h answer hanswer
  simp only [heaviestChainPeek, bind_eq_some, Option.mem_def, Option.pure_def] at hanswer
  obtain ⟨highest, hhighest, y, hy, hanswer⟩ := hanswer
  cases hanswer
  exact h highest y hhighest hy

/-! ### Along a run -/

variable [Pow] [Cheetah] {cfg : Config} {log : List Page} {heights : List Nat}

omit [TxEngine.Pow] [Cheetah] in
theorem highestBlockHeight_update {pag : Page} (h : d.update c pag = some d') :
    d'.highestBlockHeight = (d.updateHighest pag.height).highestBlockHeight := by
  simp only [Derived.update, Option.bind_eq_bind, Option.pure_def] at h
  split at h
  all_goals
    simp only [Option.bind_eq_some_iff] at h
    obtain ⟨_, -, _, -, h⟩ := h
    cases h
    rfl

omit [TxEngine.Pow] [Cheetah] in
theorem highestBlockHeight_updateHighest (hd : d.highestBlockHeight = heights.max?) (height : Nat) :
    (d.updateHighest height).highestBlockHeight = (height :: heights).max? := by
  rw [List.max?_cons, ← hd]
  unfold Derived.updateHighest
  cases d.highestBlockHeight with
  | none => rfl
  | some highest =>
    show some (if highest < height then height else highest) = some (max height highest)
    congr 1
    split <;> omega

/-- The height that the derived state keeps is the greatest one heard. -/
theorem Accepted.highest_eq {x : State × Derived} (h : Accepted cfg log heights x) :
    x.2.highestBlockHeight = heights.max? := by
  induction h with
  | init => rfl
  | mempool _ _ _ _ ih => exact ih
  | highest _ ih => exact highestBlockHeight_updateHighest ih _
  | accept _ _ h ih =>
    rw [highestBlockHeight_update h.derived]
    exact highestBlockHeight_updateHighest ih _

theorem Accepted.height_mem {x : State × Derived} (h : Accepted cfg log heights x) :
    ∀ pag ∈ log, pag.height ∈ heights := by
  induction h with
  | init => simp
  | mempool _ _ _ _ ih => exact ih
  | highest _ ih => exact fun pag hpag => .tail _ (ih pag hpag)
  | accept _ _ _ ih =>
    intro page hpage
    rcases List.mem_append.1 hpage with hpage | hpage
    · exact .tail _ (ih page hpage)
    · rw [List.mem_singleton.1 hpage]
      exact (.head _)

/-- The index has the heaviest block at its height, and nothing before there is one. This needs no
assumption on how the chains grow, unlike what the index has elsewhere. -/
structure TipIndexed (c : State) (d : Derived) : Prop where
  tip : ∀ y, c.heaviestBlock = some y → ∃ tip, c.blocks.get y = some tip ∧
    d.heaviestChain.get tip.height = some y
  empty : c.heaviestBlock = none → ∀ i, d.heaviestChain.get i = none

/-- Along every run, whether a page becomes the heaviest or not. -/
theorem Accepted.tipIndexed {x : State × Derived} (h : Accepted cfg log heights x) :
    TipIndexed x.1 x.2 := by
  induction h with
  | init =>
    constructor
    · intro y hy
      cases hy
    · intro _ _
      rfl
  | @mempool _ _ c c' _ _ _ hchain hheaviest ih =>
    have hblocks : c'.blocks = c.blocks := congrArg State.Chain.blocks hchain
    refine ⟨fun y hy => ?_, fun hnone => ih.empty (hheaviest ▸ hnone)⟩
    rw [hblocks]
    exact ih.tip y (hheaviest ▸ hy)
  | highest _ ih => exact ⟨ih.tip, ih.empty⟩
  | accept hx henters h _ =>
    obtain ⟨-, y, tip, hy, htip, hrevise⟩ := h.revised henters hx.reachable
    constructor
    · intro y' hy'
      obtain rfl : y = y' := Option.mem_unique hy hy'
      exact ⟨tip, htip, get_revise_start hrevise⟩
    · intro hnone
      rw [hy] at hnone
      cases hnone

/-- The greatest height heard is that of the heaviest block if and only if no block above that one
was heard. -/
theorem Accepted.highest_eq_iff (h : Accepted cfg log heights (c, d)) {y : Digest} {tip : Page}
    (hy : c.heaviestBlock = some y) (htip : c.blocks.get y = some tip) :
    d.highestBlockHeight = some tip.height ↔ ∀ height ∈ heights, height ≤ c.heaviestHeight := by
  have hmem : tip.height ∈ heights := h.height_mem tip ((h.logged.mem_iff y tip).1 htip).1
  rw [State.heaviestHeight_eq hy htip, show d.highestBlockHeight = heights.max? from h.highest_eq,
    List.max?_eq_some_iff]
  exact and_iff_right hmem

/-- In every run of a node, its peeks are consistent if and only if it has heard no block above the
heaviest one, or has nothing to answer. -/
theorem consistent_iff_heights (h : Accepted cfg log heights (k.c, k.d)) :
    k.Consistent ↔ (∀ height ∈ heights, height ≤ k.c.heaviestHeight) ∨
      ((∀ y, k.c.heaviestBlock = some y → k.c.balance.get y = none) ∧
        ∀ height, heights.max? = some height → k.d.heaviestChain.get height = none) := by
  have hindexed : TipIndexed k.c k.d := h.tipIndexed
  have hmax : k.d.highestBlockHeight = heights.max? := h.highest_eq
  constructor
  · intro hconsistent
    by_cases habove : ∀ height ∈ heights, height ≤ k.c.heaviestHeight
    · exact .inl habove
    right
    constructor
    · intro y hy
      by_contra hbal
      obtain ⟨bal, hbal⟩ := Option.ne_none_iff_exists'.1 hbal
      obtain ⟨tip, htip, -⟩ := hindexed.tip y hy
      -- The block was heard, so there is a greatest height, and the peek gives it.
      have hmem : tip.height ∈ heights := h.height_mem tip ((h.logged.mem_iff y tip).1 htip).1
      obtain ⟨highest, hhighest⟩ := Option.isSome_iff_exists.1 (List.isSome_max?_of_mem hmem)
      rw [← hmax] at hhighest
      have heq := (snapshot_iff _).1 (hconsistent.byFirstName default) highest y tip bal
        hhighest hy htip hbal
      exact habove ((h.highest_eq_iff hy htip).1 (heq ▸ hhighest))
    · intro height hheight
      by_contra hentry
      obtain ⟨y, hentry⟩ := Option.ne_none_iff_exists'.1 hentry
      rw [← hmax] at hheight
      obtain ⟨hy, tip, htip, heq⟩ := tip_iff.1 hconsistent.heaviestChain height y hheight hentry
      exact habove ((h.highest_eq_iff hy htip).1 (heq ▸ hheight))
  · intro h'
    rcases h' with habove | ⟨hbal, hentry⟩
    · have hsnapshot : ∀ test, ∀ answer ∈ k.balancePeek test, k.c.Snapshot test answer := by
        intro test
        refine (snapshot_iff test).2 fun highest y tip _ hhighest hy htip _ => ?_
        have heq := (h.highest_eq_iff hy htip).2 habove
        exact Option.mem_unique hhighest heq
      refine ⟨fun _ => hsnapshot _, fun _ => hsnapshot _, tip_iff.2 ?_⟩
      intro highest x hhighest hx
      cases hheaviest : k.c.heaviestBlock with
      | none =>
        rw [hindexed.empty hheaviest] at hx
        cases hx
      | some y =>
        obtain ⟨tip, htip, hentry⟩ := hindexed.tip y hheaviest
        have heq := (h.highest_eq_iff hheaviest htip).2 habove
        obtain rfl : highest = tip.height := Option.mem_unique hhighest heq
        obtain rfl : y = x := Option.mem_unique hentry hx
        exact ⟨hheaviest, tip, htip, rfl⟩
    · -- Neither kind of peek has an answer.
      have hsnapshot : ∀ test, ∀ answer ∈ k.balancePeek test, k.c.Snapshot test answer := by
        intro test
        refine (snapshot_iff test).2 fun _ y _ bal _ hy _ hget => ?_
        rw [hbal y hy] at hget
        cases hget
      refine ⟨fun _ => hsnapshot _, fun _ => hsnapshot _, tip_iff.2 ?_⟩
      intro highest x hhighest hx
      rw [hentry highest (hmax ▸ hhighest)] at hx
      cases hx

end Peek

/-! ### A tip above the heaviest block -/

section Fork

attribute [local instance] shorterTip5 shorterPow shorterCheetah shorterCurve

/-- In the run of the slow and the fast chain, the balance peeks give the heaviest block, which is
of height 2, with height 3, and the tip peek gives the tip of the other chain. -/
theorem not_consistent_shorter : ∃ k : Kernel, Kernel.Reachable shorterConfig k ∧
    (∃ notes, k.balanceByFirstName default = some (3, fastPage2.digest, notes)) ∧
      k.c.blocks.get fastPage2.digest = some fastPage2 ∧ fastPage2.height = 2 ∧
        k.heaviestChainPeek = some (3, slowPage3.digest) ∧ ¬ k.Consistent := by
  obtain ⟨k, hrun, hheaviest, hblock, hstale, hhighest, hbal⟩ := exists_shorterEnd
  obtain ⟨bal, hbal⟩ := Option.isSome_iff_exists.1 hbal
  refine ⟨k, .pokes .init hrun, ?_, hblock, by decide, ?_, fun hconsistent => ?_⟩
  · exact ⟨_, balancePeek_eq hhighest hheaviest hblock hbal _⟩
  · simp [heaviestChainPeek, hhighest, hstale]
  · have heq := (snapshot_iff _).1 (hconsistent.byFirstName default) 3 _ fastPage2 bal
      hhighest hheaviest hblock hbal
    revert heq
    decide

/-- That run has heard a block above the heaviest one. -/
theorem consistent_iff_heights_shorter : ∃ (k : Kernel) (log : List Page) (heights : List Nat),
    Accepted shorterConfig log heights (k.c, k.d) ∧
      ¬ ∀ height ∈ heights, height ≤ k.c.heaviestHeight := by
  obtain ⟨k, hrun, hheaviest, hblock, hstale, hhighest, hbal⟩ := exists_shorterEnd
  have hk : Kernel.Reachable shorterConfig k := .pokes .init hrun
  obtain ⟨log, heights, hlog⟩ := hk.accepted
  refine ⟨k, log, heights, hlog, fun habove => ?_⟩
  have hconsistent := (consistent_iff_heights hlog).2 (.inl habove)
  have htip := tip_iff.1 hconsistent.heaviestChain 3 slowPage3.digest hhighest hstale
  have heq := htip.1.symm.trans hheaviest
  revert heq
  decide

end Fork

end Nockchain.Consensus
