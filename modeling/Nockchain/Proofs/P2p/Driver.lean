import Nockchain.P2p.Driver

/-!
# `Nockchain.Proofs.P2p.Driver`: seen facts and cached blocks

A fact should reach the kernel unless its id has been seen. `suppresses_iff` says for
which histories it does so: a transaction in a response is looked up among the seen
blocks, so the two sets must agree on its id.

`current_iff` is about blocks by height. The `%gossip` effect empties the cache, but a
request that has peeked before the block changed can still enter its result afterwards.
Answers with replaced blocks begin with such an entry.
-/

set_option autoImplicit false

namespace Nockchain.P2p

open List

/-! ### Seen facts -/

namespace Driver

/-- The effect removes a transaction from the seen ones: it is asked for, or a new height
clears them all. -/
def Forgets (s : Driver) (id : String) : SeenEffect → Prop
  | .requestRawTx id' => id' = id
  | .block _ (some height) => s.firstNegative ≤ height ∧
      s.lastTxCacheClearHeight + s.seenTxClearInterval ≤ height
  | _ => False

/-- No effect of the history forgets the transaction. -/
def Kept (id : String) : Driver → List SeenEffect → Prop
  | _, [] => True
  | s, e :: es => ¬ s.Forgets id e ∧ Kept id (s.handleEffect e) es

/-- The transaction is seen in the history, and not forgotten after that. -/
def TxSeen (id : String) : Driver → List SeenEffect → Prop
  | _, [] => False
  | s, e :: es => TxSeen id (s.handleEffect e) es ∨ e = .tx id ∧ Kept id (s.handleEffect e) es

def BlockSeen (id : String) (es : List SeenEffect) : Prop := ∃ height, .block id height ∈ es

/-- The decisions that are wanted about an id: the same on both ways, by what has been seen. -/
structure Suppresses (s : Driver) (id : String) (blockSeen txSeen : Prop) : Prop where
  block : ∀ poke, (s.gossipEnabled (.heardBlock id poke) = true ↔ ¬ blockSeen) ∧
    ((s.responseEnabled (.heardBlock id poke)).1 = true ↔ ¬ blockSeen)
  tx : ∀ poke, (s.gossipEnabled (.heardTx id poke) = true ↔ ¬ txSeen) ∧
    ((s.responseEnabled (.heardTx id poke)).1 = true ↔ ¬ txSeen)

variable {s : Driver} {id : String} {e : SeenEffect}

/-- One effect adds a transaction or forgets some. -/
theorem mem_seenTxs_handleEffect :
    id ∈ (s.handleEffect e).seenTxs ↔ e = .tx id ∨ id ∈ s.seenTxs ∧ ¬ s.Forgets id e := by
  fun_cases handleEffect <;> simp_all +zetaDelta [Forgets, eq_comm, and_comm]

/-- Over a history: seen in it and not forgotten since, or seen before it and kept throughout. -/
theorem mem_seenTxs (s : Driver) (id : String) (es : List SeenEffect) :
    id ∈ (es.foldl handleEffect s).seenTxs ↔ TxSeen id s es ∨ id ∈ s.seenTxs ∧ Kept id s es := by
  induction es generalizing s with
  | nil => simp [TxSeen, Kept]
  | cons e es ih =>
    rw [foldl_cons, ih, mem_seenTxs_handleEffect, TxSeen, Kept]
    tauto

/-- Blocks are never forgotten. -/
theorem mem_seenBlocks (s : Driver) (id : String) (es : List SeenEffect) :
    id ∈ (es.foldl handleEffect s).seenBlocks ↔ BlockSeen id es ∨ id ∈ s.seenBlocks := by
  induction es generalizing s with
  | nil => simp [BlockSeen]
  | cons e es ih =>
    have hstep : id ∈ (s.handleEffect e).seenBlocks ↔
        (∃ height, .block id height = e) ∨ id ∈ s.seenBlocks := by
      fun_cases handleEffect <;> simp +zetaDelta
    rw [foldl_cons, ih, BlockSeen, BlockSeen]
    simp only [mem_cons, exists_or]
    tauto

/-- A driver of its own history decides as wanted about the ids that are seen as blocks exactly
if they are seen as transactions. -/
theorem suppresses_iff (interval : UInt64) (es : List SeenEffect) (id : String) :
    Suppresses (es.foldl handleEffect { seenTxClearInterval := interval }) id (BlockSeen id es)
      (TxSeen id { seenTxClearInterval := interval } es) ↔
      (TxSeen id { seenTxClearInterval := interval } es ↔ BlockSeen id es) := by
  have hblocks := mem_seenBlocks { seenTxClearInterval := interval } id es
  have htxs := mem_seenTxs { seenTxClearInterval := interval } id es
  simp only [Finset.notMem_empty, false_and, or_false] at hblocks htxs
  constructor
  · intro h
    have htx := (h.tx (.atom 0)).2
    simp only [responseEnabled, decide_eq_true_eq, hblocks] at htx
    exact (not_iff_not.1 htx).symm
  · intro h
    constructor <;> intro poke <;>
      simp [gossipEnabled, responseEnabled, hblocks, htxs, h]

/-- A transaction that has been seen reaches the kernel again in a response. -/
theorem not_suppresses_response :
    ¬ Suppresses ([.tx "t"].foldl handleEffect { seenTxClearInterval := 10 }) "t"
      (BlockSeen "t" [.tx "t"]) (TxSeen "t" { seenTxClearInterval := 10 } [.tx "t"]) := by
  intro h
  have htx := (h.tx (.atom 0)).2
  simp [responseEnabled, handleEffect, TxSeen, Kept] at htx

end Driver

/-! ### Blocks by height -/

namespace System

/-- The kernel had the block at the height before a poke that a `%gossip` effect has followed,
and has not had it since. -/
def Replaced (s : System) (σ : List Step) (height : UInt64) (block : Noun) : Prop :=
  ∃ pre kernel mid post, σ = pre ++ .poke kernel :: (mid ++ .gossip :: post) ∧
    (s.run pre).kernel height = some block ∧
    ∀ ρ, ρ <+: mid ++ .gossip :: post → (s.run (pre ++ .poke kernel :: ρ)).kernel height ≠ some block

/-- No step of the schedule answers with a replaced block. -/
def Current (s : System) (σ : List Step) : Prop :=
  ∀ before last, before ++ [last] <+: σ → ∀ height block,
    (s.run before).answer last = some (height, block) → ¬ s.Replaced before height block

/-- Request `i` is late: it has peeked a block when a poke takes the block out of the kernel, a
`%gossip` effect follows the poke, the block does not come back, and the request is still to enter
its result. -/
def Late (s : System) (σ : List Step) (i : Nat) : Prop :=
  ∃ pre kernel mid post height block, σ = pre ++ .poke kernel :: (mid ++ .gossip :: post) ∧
    (s.run pre).requests[i]? = some (.peeked height block) ∧
    (s.run pre).kernel height = some block ∧
    (∀ ρ, ρ <+: mid ++ .gossip :: post →
      (s.run (pre ++ .poke kernel :: ρ)).kernel height ≠ some block) ∧
    .insert i ∉ mid ++ .gossip :: post

/-- No request of the schedule enters its result when it is late. -/
def Timely (s : System) (σ : List Step) : Prop :=
  ∀ before i, before ++ [.insert i] <+: σ → ¬ s.Late before i

variable {s : System} {height : UInt64} {block : Noun} {i : Nat}

/-! #### A request between its peek and its insertion -/

theorem answer_insert : s.answer (.insert i) = some (height, block) ↔
    s.requests[i]? = some (.peeked height block) := by
  simp only [answer]
  split <;> simp_all

/-- A result that is still to be entered was so before, or the step is the peek of it. -/
theorem peeked_of_step {e : Step}
    (h : (s.step e).requests[i]? = some (.peeked height block)) :
    s.requests[i]? = some (.peeked height block) ∧ e ≠ .insert i ∨ s.kernel height = some block := by
  revert h
  fun_cases s.step e <;> intro h
  -- A request that is added has not peeked, and `set` writes another state than this one except at
  -- the peek.
  case case4 | case6 | case7 | case9 | case10 => grind
  all_goals exact .inl ⟨h, nofun⟩

/-- It remains so until it is entered. -/
theorem peeked_step {e : Step} (h : s.requests[i]? = some (.peeked height block))
    (he : e ≠ .insert i) : (s.step e).requests[i]? = some (.peeked height block) := by
  fun_cases s.step e
  case case4 | case6 | case7 | case9 => grind
  all_goals exact h

theorem peeked_run {σ : List Step} (h : s.requests[i]? = some (.peeked height block))
    (hσ : .insert i ∉ σ) : (s.run σ).requests[i]? = some (.peeked height block) := by
  induction σ generalizing s with
  | nil => exact h
  | cons e σ ih =>
    rw [mem_cons, not_or] at hσ
    exact ih (peeked_step h (Ne.symm hσ.1)) hσ.2

/-- While the kernel does not have the block no peek returns it, so the result is from before. -/
theorem peeked_of_run {σ : List Step} (h : (s.run σ).requests[i]? = some (.peeked height block))
    (hkernel : ∀ ρ, ρ <+: σ → (s.run ρ).kernel height ≠ some block) :
    s.requests[i]? = some (.peeked height block) ∧ .insert i ∉ σ := by
  induction σ generalizing s with
  | nil => exact ⟨h, not_mem_nil⟩
  | cons e σ ih =>
    obtain ⟨hstep, hσ⟩ := ih h fun ρ hρ => hkernel (e :: ρ) (cons_prefix_cons.2 ⟨rfl, hρ⟩)
    rcases peeked_of_step hstep with ⟨hpeeked, he⟩ | hblock
    · rw [mem_cons, not_or]
      exact ⟨hpeeked, Ne.symm he, hσ⟩
    · exact absurd hblock (hkernel [] nil_prefix)

/-- A request is late exactly if it is about to answer with a replaced block. -/
theorem late_iff {σ : List Step} : s.Late σ i ↔
    ∃ height block, s.Replaced σ height block ∧
      (s.run σ).answer (.insert i) = some (height, block) := by
  constructor
  · rintro ⟨pre, kernel, mid, post, height, block, rfl, hpeeked, hpre, hsince, hinsert⟩
    refine ⟨height, block, ⟨pre, kernel, mid, post, rfl, hpre, hsince⟩, answer_insert.2 ?_⟩
    rw [run, foldl_append, foldl_cons]
    exact peeked_run hpeeked hinsert
  · rintro ⟨height, block, ⟨pre, kernel, mid, post, rfl, hpre, hsince⟩, hanswer⟩
    rw [answer_insert, run, foldl_append, foldl_cons] at hanswer
    have hpeeked := peeked_of_run (s := (s.run pre).step (.poke kernel)) hanswer fun ρ hρ => by
      simpa only [run, foldl_append, foldl_cons] using hsince ρ hρ
    exact ⟨pre, kernel, mid, post, height, block, rfl, hpeeked.1, hpre, hsince, hpeeked.2⟩

/-! #### The cache -/

/-- What is in the cache after a step was there before, or the step entered it. -/
theorem lookup_step {e : Step} (h : (s.step e).driver.blockCache.lookup height = some block) :
    s.driver.blockCache.lookup height = some block ∧ e ≠ .gossip ∨
      ∃ i, e = .insert i ∧ s.answer e = some (height, block) := by
  revert h
  fun_cases s.step e <;> intro h
  case case2 => cases h
  case case3 e =>
    refine .inl ⟨?_, nofun⟩
    revert h
    fun_cases s.driver.handleEffect e <;> exact id
  case case9 i height' block' hreq =>
    by_cases heq : height = height'
    · subst heq
      rw [Finmap.lookup_insert, Option.some.injEq] at h
      exact .inr ⟨i, rfl, by simp [answer, hreq, h]⟩
    · rw [Finmap.lookup_insert_of_ne _ heq] at h
      exact .inl ⟨h, nofun⟩
  all_goals exact .inl ⟨h, nofun⟩

/-- What is in the cache after a `%gossip` effect has been entered since. -/
theorem exists_insert {σ post : List Step}
    (h : (s.run (σ ++ .gossip :: post)).driver.blockCache.lookup height = some block) :
    ∃ done i, done ++ [.insert i] <+: post ∧
      (s.run (σ ++ .gossip :: done)).answer (.insert i) = some (height, block) := by
  induction post using reverseRecOn with
  | nil =>
    rw [run, foldl_append] at h
    cases h
  | append_singleton post e ih =>
    rw [← cons_append, ← append_assoc, run, foldl_append] at h
    rcases lookup_step h with ⟨hold, -⟩ | ⟨i, rfl, hanswer⟩
    · obtain ⟨done, i, hdone, hanswer⟩ := ih hold
      exact ⟨done, i, hdone.trans (prefix_append _ _), hanswer⟩
    · exact ⟨post, i, prefix_rfl, hanswer⟩

/-- Requests are answered with blocks that have not been replaced exactly if no request enters its
result when it is late. -/
theorem current_iff (s : System) (σ : List Step) : s.Current σ ↔ s.Timely σ := by
  constructor
  · intro h before i hσ hlate
    obtain ⟨height, block, hreplaced, hanswer⟩ := late_iff.1 hlate
    exact h before _ hσ height block hanswer hreplaced
  intro h before last hσ height block hanswer hreplaced
  cases last with
  | insert i => exact h before i hσ (late_iff.2 ⟨height, block, hreplaced, hanswer⟩)
  | poke | gossip | effect | peek => cases hanswer
  | check height' =>
    obtain ⟨pre, kernel, mid, post, rfl, hpre, hsince⟩ := hreplaced
    have hlookup : (s.run (pre ++ .poke kernel :: (mid ++ .gossip :: post))).driver.blockCache.lookup
        height = some block := by
      simp only [answer, P2PState.checkCache] at hanswer
      split_ifs at hanswer
      cases hget : (s.run (pre ++ .poke kernel :: (mid ++ .gossip :: post))).driver.blockCache.lookup
          height' with
      | none => simp [hget] at hanswer
      | some cached =>
        simp only [hget, Option.some.injEq, Prod.mk.injEq] at hanswer
        rwa [← hanswer.1, ← hanswer.2]
    rw [← cons_append, ← append_assoc] at hlookup
    obtain ⟨done, i, hdone, hinsert⟩ := exists_insert hlookup
    rw [append_assoc] at hinsert
    -- The request that entered the block was late already.
    refine h _ i ?_ (late_iff.2
      ⟨height, block, ⟨pre, kernel, mid, done, rfl, hpre, fun ρ hρ => hsince ρ ?_⟩, hinsert⟩)
    · refine .trans ?_ ((prefix_append _ _).trans hσ)
      simpa using hdone
    · refine hρ.trans (prefix_append_right_inj _ |>.2 ?_)
      exact cons_prefix_cons.2 ⟨rfl, (prefix_append _ _).trans hdone⟩

/-- A request that has peeked when the block changes enters it after the cache was emptied, and
the next one is answered with it. -/
theorem not_current_insert_late :
    ¬ Current { driver := { seenTxClearInterval := 10 }, kernel := fun _ => some (.atom 0) }
      [.effect (.block "b" (some 5)), .check 1, .peek 0, .poke fun _ => some (.atom 1), .gossip,
        .insert 0, .check 1] := by
  intro h
  refine h [.effect (.block "b" (some 5)), .check 1, .peek 0, .poke fun _ => some (.atom 1),
    .gossip, .insert 0] (.check 1) prefix_rfl 1 (.atom 0) (by rfl)
    ⟨[.effect (.block "b" (some 5)), .check 1, .peek 0], fun _ => some (.atom 1), [], [.insert 0],
      rfl, by rfl, fun ρ hρ => ?_⟩
  rw [← mem_inits] at hρ
  simp only [nil_append, inits, map_cons, map_nil, mem_cons,
    not_mem_nil, or_false] at hρ
  rcases hρ with rfl | rfl | rfl <;> exact nofun

end System

end Nockchain.P2p
