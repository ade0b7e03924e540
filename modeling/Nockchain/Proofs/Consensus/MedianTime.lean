import Nockchain.Lib.OrderStatistics
import Nockchain.Proofs.Consensus.Determined
import Nockchain.Proofs.Consensus.HeaviestChain

/-!
# `Nockchain.Proofs.Consensus.MedianTime`: timestamps and targets along a chain

A page may not be older than the median of the timestamps of its ancestors, as
far as a window reaches. The window of a child is that of its parent with the
child's own timestamp, and without the oldest one where the window was full. An
element that is not below the median enters, so the median does not fall as long
as the window grows, and afterwards if it is of an odd size: this is a count of
the elements that reach the old median (`median_le_of_grow`,
`median_le_of_slide`). A full window of an even size can lose an element above
both middle ones, and then the median falls: with epochs of one block the next
retarget subtracts a larger time from a smaller one (`minTimestamps_fall_even`).

`Timed` says what the checks of a page leave behind for its children. From it
follows that epochs do not end before they start, and with that what
`compute-target` computes for every page (`medianTime_retarget`).
-/

set_option autoImplicit false

namespace Nockchain.Consensus
open Lib TxEngine State List

/-! ### Medians -/

/-- The loop ends with the mean of the two elements in the middle, which are one if the length is
odd. -/
theorem medianLoop_eq {k : Nat} {s : List Nat} (hk : s.length ≤ k) (hs : s ≠ []) :
    medianLoop k s = some ((s.getD ((s.length - 1) / 2) 0 + s.getD (s.length / 2) 0) / 2) := by
  induction k generalizing s with
  | zero => exact absurd (length_eq_zero_iff.1 (Nat.le_zero.1 hk)) hs
  | succ k ih =>
    match s, hs with
    | [a], _ =>
      have hmean : (a + a) / 2 = a := by omega
      simpa [medianLoop] using hmean.symm
    | [a, b], _ => simp [medianLoop]
    | a :: b :: c :: rest, _ =>
      have hlength : (b :: c :: rest).dropLast.length = rest.length + 1 := by simp
      have hget : ∀ i, i < rest.length + 1 →
          (b :: c :: rest).dropLast.getD i 0 = (a :: b :: c :: rest).getD (i + 1) 0 := by
        intro i hi
        rw [getD_cons_succ, getD_eq_getElem _ _ (by omega),
          getD_eq_getElem _ _ (by simp; omega), getElem_dropLast]
      have hfirst : (rest.length + 1 - 1) / 2 + 1 = (rest.length + 3 - 1) / 2 := by omega
      have hsecond : (rest.length + 1) / 2 + 1 = (rest.length + 3) / 2 := by omega
      rw [medianLoop, ih (by simp at hk ⊢; omega) (by simp), hlength, hget _ (by omega),
        hget _ (by omega), hfirst, hsecond]
      · rfl
      · simp
      · simp

variable {xs : List Nat}

theorem median_eq_some {m : Nat} (h : median xs = some m) :
    ∃ s : List Nat, s.Perm xs ∧ s.Pairwise (· ≤ ·) ∧ s ≠ [] ∧
      m = (s.getD ((s.length - 1) / 2) 0 + s.getD (s.length / 2) 0) / 2 := by
  have hperm := perm_insertionSort (· ≤ ·) xs
  have hne : xs.insertionSort (· ≤ ·) ≠ [] := by
    intro hnil
    rw [median, hnil] at h
    unfold medianLoop at h
    cases h
  rw [median, medianLoop_eq hperm.length_eq.le hne] at h
  exact ⟨_, hperm, pairwise_insertionSort (· ≤ ·) xs, hne, (Option.some.inj h).symm⟩

theorem exists_median (h : xs ≠ []) : ∃ m, median xs = some m := by
  have hperm := perm_insertionSort (· ≤ ·) xs
  refine ⟨_, medianLoop_eq hperm.length_eq.le fun hnil => h ?_⟩
  rw [hnil] at hperm
  exact nil_perm.1 hperm

/-- What more than half of a list reaches, its median reaches. -/
theorem le_median {m v : Nat} (h : median xs = some m)
    (hv : xs.length / 2 + 1 ≤ xs.countP (fun x => v ≤ x)) : v ≤ m := by
  obtain ⟨s, hperm, hsorted, hne, rfl⟩ := median_eq_some h
  have hpos := length_pos_iff.2 hne
  rw [← hperm.length_eq, ← hperm.countP_eq] at hv
  have hmiddle : ∀ i, (s.length - 1) / 2 ≤ i → i < s.length → v ≤ s.getD i 0 := by
    intro i hle hi
    rw [getD_eq_getElem _ _ hi]
    exact le_getElem_of_countP hsorted hi (by omega)
  have h1 := hmiddle ((s.length - 1) / 2) le_rfl (by omega)
  have h2 := hmiddle (s.length / 2) (by omega) (by omega)
  omega

/-- Half of a list reaches its median. -/
theorem countP_median {m : Nat} (h : median xs = some m) :
    (xs.length + 1) / 2 ≤ xs.countP (fun x => m ≤ x) := by
  obtain ⟨s, hperm, hsorted, hne, rfl⟩ := median_eq_some h
  have hpos := length_pos_iff.2 hne
  rw [← hperm.length_eq, ← hperm.countP_eq]
  have hhalf : s.length / 2 < s.length := by omega
  have hle : s.getD ((s.length - 1) / 2) 0 ≤ s.getD (s.length / 2) 0 := by
    rw [getD_eq_getElem _ _ (by omega), getD_eq_getElem _ _ hhalf]
    exact hsorted.rel_get_of_le (by show (s.length - 1) / 2 ≤ s.length / 2; omega)
  have hcount := countP_getElem_le hsorted hhalf
  rw [← getD_eq_getElem s 0 hhalf] at hcount
  calc (s.length + 1) / 2 = s.length - s.length / 2 := by omega
    _ ≤ s.countP (fun x => s.getD (s.length / 2) 0 ≤ x) := hcount
    _ ≤ _ := countP_mono_left fun x _ hx => by
        rw [decide_eq_true_eq] at hx ⊢
        omega

/-- A window that grows by an element which is not below its median. -/
theorem median_le_of_grow {xs ys : List Nat} {m m' y : Nat} (hx : median xs = some m)
    (hy : median ys = some m') (hperm : ys.Perm (y :: xs)) (hle : m ≤ y) : m ≤ m' := by
  have hcount := countP_median hx
  refine le_median hy ?_
  rw [hperm.length_eq, hperm.countP_eq, countP_cons, if_pos (decide_eq_true hle),
    length_cons]
  omega

/-- A window of an odd number of elements that moves on by one which is not below its median. -/
theorem median_le_of_slide {xs ys zs : List Nat} {m m' x y : Nat} (hx : median xs = some m)
    (hy : median ys = some m') (hxs : xs.Perm (x :: zs)) (hys : ys.Perm (y :: zs))
    (hodd : Odd xs.length) (hle : m ≤ y) : m ≤ m' := by
  have hcount := countP_median hx
  have hlength : xs.length = zs.length + 1 := hxs.length_eq
  obtain ⟨n, hn⟩ := hodd
  rw [hxs.countP_eq, countP_cons] at hcount
  have hone : (if decide (m ≤ x) = true then 1 else 0) ≤ 1 := by split <;> omega
  refine le_median hy ?_
  rw [hys.length_eq, hys.countP_eq, countP_cons, if_pos (decide_eq_true hle),
    length_cons]
  omega

/-! ### The window of a page -/

section Window

variable [Tip5] {c : State}

namespace State

theorem prevTimestamps_ne_nil {b : Nat} {pag : Page} {acc l : List Nat}
    (h : c.prevTimestamps b pag acc = some l) : l ≠ [] := by
  induction b generalizing pag acc with
  | zero =>
    cases h
    exact cons_ne_nil _ _
  | succ b ih =>
    unfold prevTimestamps at h
    split at h
    · cases h
      exact cons_ne_nil _ _
    · obtain ⟨par, -, h⟩ := bind_eq_some.1 h
      exact ih h

theorem prevTimestamps_append (b : Nat) (pag : Page) (acc : List Nat) :
    c.prevTimestamps b pag acc = (c.prevTimestamps b pag []).map (· ++ acc) := by
  induction b generalizing pag acc with
  | zero => rfl
  | succ b ih =>
    unfold prevTimestamps
    split
    · rfl
    cases c.blocks.get pag.parent with
    | none => rfl
    | some par =>
      show c.prevTimestamps b par (pag.timestamp :: acc)
        = (c.prevTimestamps b par [pag.timestamp]).map (· ++ acc)
      rw [ih par (pag.timestamp :: acc), ih par [pag.timestamp], Option.map_map]
      congr 1
      funext l
      simp

/-- The window of a page is its timestamp after the window of its parent, with one block less. -/
theorem prevTimestamps_succ {b : Nat} {pag par : Page} (hheight : pag.height ≠ 0)
    (hpar : c.blocks.get pag.parent = some par) :
    c.prevTimestamps (b + 1) pag [] = (c.prevTimestamps b par []).map (· ++ [pag.timestamp]) := by
  rw [prevTimestamps, if_neg hheight, hpar]
  exact prevTimestamps_append b par [pag.timestamp]

/-- A wider window is the same one, or it has one older timestamp and is full. -/
theorem prevTimestamps_wider (hrooted : c.Rooted) (b : Nat) {x : Digest} {pag : Page}
    (hx : c.blocks.get x = some pag) : ∃ l, c.prevTimestamps b pag [] = some l ∧
      (c.prevTimestamps (b + 1) pag [] = some l ∨
        l.length = b + 1 ∧ ∃ t, c.prevTimestamps (b + 1) pag [] = some (t :: l)) := by
  induction b generalizing x pag with
  | zero =>
    refine ⟨[pag.timestamp], rfl, ?_⟩
    by_cases hheight : pag.height = 0
    · exact .inl (by rw [prevTimestamps, if_pos hheight])
    · obtain ⟨par, hpar, -⟩ := hrooted x pag (.inl hx) hheight
      refine .inr ⟨rfl, par.timestamp, ?_⟩
      rw [prevTimestamps_succ hheight hpar]
      rfl
  | succ b ih =>
    by_cases hheight : pag.height = 0
    · refine ⟨[pag.timestamp], ?_, .inl ?_⟩
      · rw [prevTimestamps, if_pos hheight]
      · rw [prevTimestamps, if_pos hheight]
    obtain ⟨par, hpar, -⟩ := hrooted x pag (.inl hx) hheight
    obtain ⟨l, hl, hwider⟩ := ih hpar
    rw [prevTimestamps_succ hheight hpar, prevTimestamps_succ hheight hpar, hl]
    refine ⟨l ++ [pag.timestamp], rfl, ?_⟩
    rcases hwider with hsame | ⟨hlength, t, ht⟩
    · exact .inl (by rw [hsame]; rfl)
    · refine .inr ⟨by rw [length_append, hlength]; rfl, t, ?_⟩
      rw [ht]
      rfl

/-- The median of the timestamps does not fall from a block to its child, if the window is full with
an odd number of timestamps. -/
theorem exists_median_child (hrooted : c.Rooted) {b : Nat} (hodd : Odd (b + 1)) {pag par : Page}
    {l : List Nat} {m : Nat} (hheight : pag.height ≠ 0)
    (hpar : c.blocks.get pag.parent = some par) (hl : c.prevTimestamps b par [] = some l)
    (hm : median l = some m) (hle : m ≤ pag.timestamp) :
    ∃ l' m', c.prevTimestamps b pag [] = some l' ∧ median l' = some m' ∧ m ≤ m' := by
  cases b with
  | zero =>
    cases hl
    obtain ⟨m', hm'⟩ := exists_median (cons_ne_nil pag.timestamp [])
    exact ⟨_, m', rfl, hm', median_le_of_slide hm hm' (.refl _) (.refl _) hodd hle⟩
  | succ b =>
    obtain ⟨l0, hl0, hwider⟩ := prevTimestamps_wider hrooted b hpar
    obtain ⟨m', hm'⟩ := exists_median (append_ne_nil_of_right_ne_nil l0 (cons_ne_nil pag.timestamp []))
    refine ⟨_, m', by rw [prevTimestamps_succ hheight hpar, hl0]; rfl, hm', ?_⟩
    rcases hwider with hsame | ⟨hlength, t, ht⟩
    · rw [hsame] at hl
      cases hl
      exact median_le_of_grow hm hm' (perm_append_singleton _ _) hle
    · rw [ht] at hl
      cases hl
      refine median_le_of_slide hm hm' (.refl _) (perm_append_singleton _ _) ?_ hle
      rwa [length_cons, hlength]

end State

end Window

/-! ### Retargeting -/

/-- `compute-target-raw`: the target scaled by the duration of the epoch, which counts as a quarter
of the one that is aimed at or as four times it where it is less or more, and rounded down. -/
theorem computeTargetRaw_eq (bc : BlockchainConstants) (epochDur : Nat) (prevTarget : Bignum) :
    computeTargetRaw bc epochDur prevTarget = .chunk (min bc.maxTargetAtom (prevTarget.merge
        * max (bc.targetEpochDuration / 4) (min epochDur (bc.targetEpochDuration * 4))
        / bc.targetEpochDuration)) := by
  have hcapped : (if epochDur < bc.targetEpochDuration / 4 then bc.targetEpochDuration / 4
      else if bc.targetEpochDuration * 4 < epochDur then bc.targetEpochDuration * 4 else epochDur)
      = max (bc.targetEpochDuration / 4) (min epochDur (bc.targetEpochDuration * 4)) := by
    split
    · omega
    · split <;> omega
  rw [computeTargetRaw, hcapped]
  split
  case isTrue hlt => rw [min_eq_left hlt.le]
  case isFalse hge => rw [min_eq_right (not_lt.1 hge)]

/-! ### Runs -/

section Runs

variable [Tip5] [Pow] [Cheetah] {cfg : Config} {c c' : State}

variable {pag : Page}

omit [TxEngine.Pow] [Cheetah] in
theorem State.Ancestor.exists_block (hrooted : c.Rooted) {x y : Digest}
    (h : c.Ancestor x y) (hy : c.blocks.get y = some pag) : ∃ page, c.blocks.get x = some page := by
  induction h generalizing pag with
  | self => exact ⟨pag, hy⟩
  | parent hget hheight _ ih =>
    obtain ⟨par, hpar, -⟩ := hrooted _ _ (.inl hget) hheight
    exact ih hpar

/-- The epoch that a page closes, if it closes one, does not end before it starts, and the constants
give epochs a duration to aim at. -/
def State.ClosesEpoch (bc : BlockchainConstants) (c : State) (pag : Page) : Prop :=
  pag.epochCounter + 1 = bc.blocksPerEpoch → bc.targetEpochDuration ≠ 0 ∧
    ∀ s start l stop, c.epochStartOf pag = some s → c.minTimestamps.get s = some start →
      c.prevTimestamps (bc.minPastBlocks - 1) pag [] = some l → median l = some stop →
        start ≤ stop

omit [TxEngine.Pow] [Cheetah] in
theorem State.closesEpoch_iff {bc : BlockchainConstants} {s : Digest} {start stop : Nat}
    {l : List Nat} (hs : c.epochStartOf pag = some s) (hstart : c.minTimestamps.get s = some start)
    (hl : c.prevTimestamps (bc.minPastBlocks - 1) pag [] = some l) (hstop : median l = some stop) :
    c.ClosesEpoch bc pag ↔
      (pag.epochCounter + 1 = bc.blocksPerEpoch → bc.targetEpochDuration ≠ 0 ∧ start ≤ stop) := by
  refine imp_congr_right fun _ => and_congr_right fun _ => ?_
  constructor
  · exact fun hall => hall s start l stop hs hstart hl hstop
  · intro hle s' start' l' stop' hs' hstart' hl' hstop'
    cases hs.symm.trans hs'
    cases hl.symm.trans hl'
    cases hstart.symm.trans hstart'
    cases hstop.symm.trans hstop'
    exact hle

/-- A page has been held against the entries of its parent. -/
structure Aligned (c : State) (pag : Page) : Prop where
  timestamp : ∃ t, c.minTimestamps.get pag.parent = some t ∧ t ≤ pag.timestamp
  target : c.targets.get pag.parent = some pag.target

omit [TxEngine.Pow] [Cheetah] in
theorem Aligned.keep (h : Aligned c pag) (hk : Keeps c c')
    (hparent : c.blocks.has pag.parent) : Aligned c' pag where
  timestamp := by
    rw [hk.minTimestamps _ hparent]
    exact h.timestamp
  target := by
    rw [hk.targets _ hparent]
    exact h.target

omit [Cheetah] in
theorem Heard.aligned (h : Heard cfg c pag) : Aligned c pag := by
  obtain ⟨par, nowSecs, hpage⟩ := h.pageChecked
  obtain ⟨t, ht, hle, -⟩ := hpage.timestamp
  exact ⟨⟨t, ht, hle⟩, hpage.target⟩

/-- A page that is not in the chain stands on a block. -/
structure Follows (c : State) (pag par : Page) : Prop where
  fresh : c.blocks.get pag.digest = none
  parent : c.blocks.get pag.parent = some par
  height : pag.height = par.height + 1
  aligned : Aligned c pag

/-- The entries of the blocks satisfy their equations, and each block that has a parent fits it. -/
structure Timed (bc : BlockchainConstants) (c : State) : Prop where
  determined : Determined bc (fun _ => True) c
  aligned : ∀ x pag, c.BlockAt x pag → pag.height ≠ 0 → Aligned c pag

namespace Timed

theorem init {bc : BlockchainConstants} : Timed bc (default : State) where
  determined := .init
  aligned x pag hat := by
    rcases hat with hget | ⟨_, hget⟩ <;> cases hget

theorem mempool (h : Timed cfg.bc c) (hbooks : c.Bookkeeping) (hshift : Shift cfg c c')
    (hchain : c'.chain = c.chain) : Timed cfg.bc c' where
  determined := h.determined.mempool hbooks hshift hchain
  aligned x pag hat hheight := by
    have haligned : Aligned c pag := by
      rcases hat with hget | ⟨heardAt, hget⟩
      · rw [show c'.blocks = c.blocks from congrArg State.Chain.blocks hchain] at hget
        exact h.aligned x pag (.inl hget) hheight
      · rcases hshift.pending hget with hold | ⟨-, heard⟩
        · exact h.aligned x pag (.inr ⟨heardAt, hold⟩) hheight
        · exact heard.aligned
    constructor
    · rw [show c'.minTimestamps = c.minTimestamps from congrArg State.Chain.minTimestamps hchain]
      exact haligned.timestamp
    · rw [show c'.targets = c.targets from congrArg State.Chain.targets hchain]
      exact haligned.target

/-- A page that enters fits its parent, and the blocks before it keep their entries. -/
theorem enter {pag : Page} {acc : TxAcc} (h : Timed cfg.bc c) (hc : Reachable cfg c)
    (henters : Enters cfg c pag acc) (haccepted : State.AcceptedPage cfg.bc c pag acc c') :
    Timed cfg.bc c' := by
  have hbooks := State.Bookkeeping.of_reachable hc
  have hk := Keeps.of_accepted haccepted (h.determined.fresh _ haccepted.fresh)
  have hold : ∀ x page, c.BlockAt x page → page.height ≠ 0 → Aligned c' page := by
    intro x page hat hheight
    obtain ⟨par, hpar, -⟩ := State.Rooted.of_reachable hc x page hat hheight
    exact (h.aligned x page hat hheight).keep hk (ZMap.has_eq_true.2 ⟨par, hpar⟩)
  refine ⟨?_, fun x page hat hheight => ?_⟩
  · cases henters with
    | genesis fresh heard => exact h.determined.genesis hbooks fresh heard haccepted
    | page heard valid =>
      exact h.determined.page hbooks (fun _ _ _ => trivial) heard valid haccepted
  · rcases hat with hget | ⟨heardAt, hget⟩
    · by_cases hx : x = pag.digest
      · rw [hx, henters.block_of_accepted haccepted] at hget
        cases hget
        cases henters with
        | genesis _ heard => exact absurd (checkGenesis_eq_true heard).height hheight
        | page heard _ =>
          rcases heard with heard | ⟨heardAt, hpending⟩
          · exact heard.aligned.keep hk heard.parent
          · exact hold _ _ (.inr ⟨heardAt, hpending⟩) hheight
      · rw [haccepted.blocks, ZMap.get_put, if_neg hx] at hget
        exact hold x page (.inl hget) hheight
    · exact hold x page (.inr ⟨heardAt, haccepted.pending x _ hget⟩) hheight

theorem of_turns {d : Derived} (h : Turns cfg default (c, d)) : Timed cfg.bc c :=
  Turns.induction init (fun _ _ hc h => h.mempool (.of_reachable hc))
    (fun _ _ _ _ hc h => h.enter hc) h

section Medians

variable {bc : BlockchainConstants} (h : Timed bc c) (hbooks : c.Bookkeeping) (hrooted : c.Rooted)
include h hbooks

variable {x : Digest} {pag : Page}

/-- The entry of a block is the median of its window. -/
theorem window (hx : c.blocks.get x = some pag) :
    ∃ l, c.prevTimestamps (bc.minPastBlocks - 1) pag [] = some l ∧
      c.minTimestamps.get x = median l := by
  rw [← hbooks.digest x pag (.inl hx)]
  exact (h.determined.entries x pag hx).minTimestamps

theorem exists_minTimestamp (hx : c.blocks.get x = some pag) :
    ∃ t, c.minTimestamps.get x = some t := by
  obtain ⟨l, hl, hmedian⟩ := h.window hbooks hx
  obtain ⟨t, ht⟩ := exists_median (prevTimestamps_ne_nil hl)
  exact ⟨t, hmedian.trans ht⟩

include hrooted

/-- The entry of a page is not less than that of the block on which it stands. -/
theorem exists_median_le (hodd : Odd bc.minPastBlocks) {pag par : Page} {t : Nat}
    (hheight : pag.height ≠ 0) (hpar : c.blocks.get pag.parent = some par)
    (ht : c.minTimestamps.get pag.parent = some t) (hle : t ≤ pag.timestamp) :
    ∃ l m, c.prevTimestamps (bc.minPastBlocks - 1) pag [] = some l ∧ median l = some m ∧ t ≤ m := by
  obtain ⟨l, hl, hmedian⟩ := h.window hbooks hpar
  have hodd' : Odd (bc.minPastBlocks - 1 + 1) := by
    obtain ⟨n, hn⟩ := hodd
    exact ⟨n, by omega⟩
  exact exists_median_child hrooted hodd' hheight hpar hl (hmedian ▸ ht) hle

/-- From a block to its child the median time does not fall. -/
theorem minTimestamp_le (hodd : Odd bc.minPastBlocks)
    (hx : c.blocks.get x = some pag) (hheight : pag.height ≠ 0) :
    ∃ t t', c.minTimestamps.get pag.parent = some t ∧ c.minTimestamps.get x = some t' ∧ t ≤ t' := by
  obtain ⟨par, hpar, -⟩ := hrooted x pag (.inl hx) hheight
  obtain ⟨t, ht, hle⟩ := (h.aligned x pag (.inl hx) hheight).timestamp
  obtain ⟨l, m, hl, hm, hle⟩ := h.exists_median_le hbooks hrooted hodd hheight hpar ht hle
  obtain ⟨l', hl', hmedian⟩ := h.window hbooks hx
  rw [hl] at hl'
  cases hl'
  exact ⟨t, m, ht, hmedian.trans hm, hle⟩

/-- Along the ancestors of a block the median time does not rise. -/
theorem minTimestamp_le_of_ancestor (hodd : Odd bc.minPastBlocks) {x y : Digest}
    (hancestor : c.Ancestor x y) {t' : Nat} (ht' : c.minTimestamps.get y = some t') :
    ∃ t, c.minTimestamps.get x = some t ∧ t ≤ t' := by
  induction hancestor generalizing t' with
  | self => exact ⟨t', ht', le_rfl⟩
  | parent hget hheight _ ih =>
    obtain ⟨s, s', hs, hs', hle⟩ := h.minTimestamp_le hbooks hrooted hodd hget hheight
    rw [ht'] at hs'
    cases hs'
    obtain ⟨t, ht, htle⟩ := ih hs
    exact ⟨t, ht, htle.trans hle⟩

/-- An epoch starts at an ancestor of each of its blocks. -/
theorem ancestor_epochStart (hx : c.blocks.get x = some pag) :
    ∃ s, c.epochStart.get x = some s ∧ c.Ancestor s x := by
  induction hn : pag.height generalizing x pag with
  | zero =>
    have hentry := (h.determined.entries x pag hx).epochStart
    rw [hbooks.digest x pag (.inl hx), epochStartOf, if_pos hn] at hentry
    exact ⟨_, hentry, hbooks.digest x pag (.inl hx) ▸ .self⟩
  | succ n ih =>
    have hheight : pag.height ≠ 0 := by omega
    obtain ⟨par, hpar, heq⟩ := hrooted x pag (.inl hx) hheight
    have hentry := (h.determined.entries x pag hx).epochStart
    rw [hbooks.digest x pag (.inl hx), epochStartOf, if_neg hheight] at hentry
    split at hentry
    · exact ⟨_, hentry, .parent hx hheight .self⟩
    · obtain ⟨s, hs, hancestor⟩ := ih hpar (by omega)
      exact ⟨s, hentry.trans hs, .parent hx hheight hancestor⟩

/-- No epoch of an accepted block ends before it starts. -/
theorem exists_epochDuration (hodd : Odd bc.minPastBlocks)
    (hx : c.blocks.get x = some pag) : ∃ s start stop, c.epochStart.get x = some s ∧
      c.minTimestamps.get s = some start ∧ c.minTimestamps.get x = some stop ∧ start ≤ stop ∧
      c.computeEpochDuration x = some (stop - start) := by
  obtain ⟨s, hs, hancestor⟩ := h.ancestor_epochStart hbooks hrooted hx
  obtain ⟨stop, hstop⟩ := h.exists_minTimestamp hbooks hx
  obtain ⟨start, hstart, hle⟩ := h.minTimestamp_le_of_ancestor hbooks hrooted hodd hancestor hstop
  refine ⟨s, start, stop, hs, hstart, hstop, hle, ?_⟩
  simp [computeEpochDuration, hs, hstart, hstop, hle]

variable {par : Page} (hpag : Follows c pag par)
include hpag

/-- The times of the epoch that a page is in: of the block before its first one, and of the page. -/
theorem exists_window : ∃ s start l stop, c.epochStartOf pag = some s ∧ c.Ancestor s pag.parent ∧
    c.minTimestamps.get s = some start ∧
    c.prevTimestamps (bc.minPastBlocks - 1) pag [] = some l ∧ median l = some stop := by
  have hheight : pag.height ≠ 0 := by rw [hpag.height]; exact Nat.succ_ne_zero _
  obtain ⟨s, hs, hancestor⟩ : ∃ s, c.epochStartOf pag = some s ∧ c.Ancestor s pag.parent := by
    rw [epochStartOf, if_neg hheight]
    split
    · exact ⟨_, rfl, .self⟩
    · exact h.ancestor_epochStart hbooks hrooted hpag.parent
  obtain ⟨page, hpage⟩ := State.Ancestor.exists_block hrooted hancestor hpag.parent
  obtain ⟨start, hstart⟩ := h.exists_minTimestamp hbooks hpage
  obtain ⟨l, hl⟩ : ∃ l, c.prevTimestamps (bc.minPastBlocks - 1) pag [] = some l := by
    cases bc.minPastBlocks - 1 with
    | zero => exact ⟨_, rfl⟩
    | succ b =>
      obtain ⟨l, hl, -⟩ := prevTimestamps_wider hrooted b hpag.parent
      exact ⟨_, by rw [prevTimestamps_succ hheight hpag.parent, hl]; rfl⟩
  obtain ⟨stop, hstop⟩ := exists_median (prevTimestamps_ne_nil hl)
  exact ⟨s, start, l, stop, hs, hancestor, hstart, hl, hstop⟩

/-- `accept-page` makes the entries of a page that stands on a block exactly if the epoch that the
page closes has a duration. -/
theorem exists_entries_iff (hpos : bc.minPastBlocks ≠ 0) : (∃ start times target,
      c.epochStartOf pag = some start ∧ c.updateMinTimestamps bc pag = some times ∧
      { c with epochStart := c.epochStart.put pag.digest start, minTimestamps := times }.targetOf bc
        pag = some target) ↔ c.ClosesEpoch bc pag := by
  obtain ⟨s, start, l, stop, hs, hancestor, hstart, hl, hstop⟩ :=
    h.exists_window hbooks hrooted hpag
  have htimes : c.updateMinTimestamps bc pag = some (c.minTimestamps.put pag.digest stop) := by
    simp [updateMinTimestamps, hpos, hl, hstop]
  have hne : s ≠ pag.digest := by
    rintro rfl
    obtain ⟨page, hpage⟩ := State.Ancestor.exists_block hrooted hancestor hpag.parent
    rw [hpag.fresh] at hpage
    cases hpage
  rw [closesEpoch_iff hs hstart hl hstop]
  by_cases hclose : pag.epochCounter + 1 = bc.blocksPerEpoch
  · have htarget : targetOf bc { c with
          epochStart := c.epochStart.put pag.digest s
          minTimestamps := c.minTimestamps.put pag.digest stop } pag =
        if bc.targetEpochDuration ≠ 0 ∧ start ≤ stop then
          some (computeTargetRaw bc (stop - start) pag.target) else none := by
      rw [targetOf, if_pos hclose]
      by_cases hle : start ≤ stop <;> by_cases hduration : bc.targetEpochDuration = 0 <;>
        simp [computeTarget, computeEpochDuration, ZMap.get_put, hne, hstart, hle, hduration, guard]
    rw [forall_prop_of_true hclose]
    constructor
    · rintro ⟨s', times, target, hs', htimes', hsome⟩
      cases hs.symm.trans hs'
      cases htimes.symm.trans htimes'
      by_contra hnot
      rw [htarget, if_neg hnot] at hsome
      cases hsome
    · exact fun hfits => ⟨s, _, _, hs, htimes, htarget.trans (if_pos hfits)⟩
  · refine iff_of_true ⟨s, _, pag.target, hs, htimes, ?_⟩ fun h => absurd h hclose
    rw [targetOf, if_neg hclose, if_neg (by rw [hpag.height]; exact Nat.succ_ne_zero _)]
    exact hpag.aligned.target

/-- In a window of an odd number of blocks no epoch ends before it starts. -/
theorem closesEpoch (hodd : Odd bc.minPastBlocks) (hduration : bc.targetEpochDuration ≠ 0) :
    c.ClosesEpoch bc pag := by
  obtain ⟨s, start, l, stop, hs, hancestor, hstart, hl, hstop⟩ :=
    h.exists_window hbooks hrooted hpag
  obtain ⟨t, ht, hle⟩ := hpag.aligned.timestamp
  obtain ⟨l', m, hl', hm, htm⟩ := h.exists_median_le hbooks hrooted hodd
    (by rw [hpag.height]; exact Nat.succ_ne_zero _) hpag.parent ht hle
  obtain ⟨t', ht', hle'⟩ := h.minTimestamp_le_of_ancestor hbooks hrooted hodd hancestor ht
  cases hl.symm.trans hl'
  cases hstop.symm.trans hm
  cases hstart.symm.trans ht'
  exact (closesEpoch_iff hs hstart hl hstop).2 fun _ => ⟨hduration, hle'.trans htm⟩

/-- What a page closes is the same in every state that keeps the blocks. -/
theorem closesEpoch_congr {c' : State} (hk : Keeps c c') :
    c'.ClosesEpoch bc pag ↔ c.ClosesEpoch bc pag := by
  obtain ⟨s, start, l, stop, hs, hancestor, hstart, hl, hstop⟩ :=
    h.exists_window hbooks hrooted hpag
  obtain ⟨page, hpage⟩ := State.Ancestor.exists_block hrooted hancestor hpag.parent
  have hs' : c'.epochStartOf pag = some s := (epochStartOf_congr fun _ =>
    hk.epochStart _ (ZMap.has_eq_true.2 ⟨par, hpag.parent⟩)).trans hs
  have hstart' : c'.minTimestamps.get s = some start :=
    (hk.minTimestamps s (ZMap.has_eq_true.2 ⟨page, hpage⟩)).trans hstart
  rw [closesEpoch_iff hs hstart hl hstop,
    closesEpoch_iff hs' hstart' (prevTimestamps_mono hk.blocks hl) hstop]

end Medians

end Timed

/-- A page that was heard or is pending stands on a block. -/
theorem Timed.follows (h : Timed cfg.bc c) (hbooks : c.Bookkeeping)
    (hpag : Heard cfg c pag ∨ ∃ heardAt, c.pendingBlocks.get pag.digest = some (pag, heardAt)) :
    ∃ par, Follows c pag par := by
  rcases hpag with heard | ⟨heardAt, hget⟩
  · obtain ⟨par, nowSecs, hpage⟩ := heard.pageChecked
    have hfresh := (Bool.or_eq_false_iff.1 heard.fresh).1
    exact ⟨par, ZMap.has_eq_false.1 hfresh, hpage.parent, hpage.height, heard.aligned⟩
  · obtain ⟨hheight, par, hpar, heq⟩ := h.determined.pending _ _ _ hget
    exact ⟨par, hbooks.pending _ _ hget, hpar, heq, h.aligned _ _ (.inr ⟨heardAt, hget⟩) hheight⟩

/-- In a node whose window is an odd number of blocks, the median time does not fall from a block to
its child, no epoch ends before it starts, the target of an epoch is that of the one before, scaled
by its duration within bounds, and no page that may enter the chain fails to have a target. -/
theorem medianTime_retarget [Curve] {k : Kernel} (hk : Kernel.Reachable cfg k)
    (hodd : Odd cfg.bc.minPastBlocks) (hduration : cfg.bc.targetEpochDuration ≠ 0) :
    (∀ x pag, k.c.blocks.get x = some pag → pag.height ≠ 0 → ∃ t t',
      k.c.minTimestamps.get pag.parent = some t ∧ k.c.minTimestamps.get x = some t' ∧ t ≤ t') ∧
    (∀ x pag, k.c.blocks.get x = some pag → ∃ s start stop, k.c.epochStart.get x = some s ∧
      k.c.minTimestamps.get s = some start ∧ k.c.minTimestamps.get x = some stop ∧ start ≤ stop ∧
      k.c.computeEpochDuration x = some (stop - start) ∧
      (pag.epochCounter + 1 = cfg.bc.blocksPerEpoch → k.c.targets.get x =
        some (.chunk (min cfg.bc.maxTargetAtom (pag.target.merge
          * max (cfg.bc.targetEpochDuration / 4)
              (min (stop - start) (cfg.bc.targetEpochDuration * 4))
          / cfg.bc.targetEpochDuration))))) ∧
    ∀ pag, (Heard cfg k.c pag ∨ ∃ heardAt, k.c.pendingBlocks.get pag.digest = some (pag, heardAt)) →
      ∃ start times target, k.c.epochStartOf pag = some start ∧
        k.c.updateMinTimestamps cfg.bc pag = some times ∧
        State.targetOf cfg.bc { k.c with
          epochStart := k.c.epochStart.put pag.digest start
          minTimestamps := times } pag = some target := by
  have hc : Reachable cfg k.c := .steps .init (Turns.steps hk.takes)
  have hbooks := State.Bookkeeping.of_reachable hc
  have hrooted := State.Rooted.of_reachable hc
  have h : Timed cfg.bc k.c := .of_turns hk.takes
  refine ⟨fun x pag hx => h.minTimestamp_le hbooks hrooted hodd hx, fun x pag hx => ?_,
    fun pag hpag => ?_⟩
  · obtain ⟨s, start, stop, hs, hstart, hstop, hle, hdur⟩ :=
      h.exists_epochDuration hbooks hrooted hodd hx
    refine ⟨s, start, stop, hs, hstart, hstop, hle, hdur, fun hlast => ?_⟩
    have hdigest := hbooks.digest x pag (.inl hx)
    have hentry := (h.determined.entries x pag hx).targets
    rw [targetOf, if_pos hlast, computeTarget, hdigest, hdur] at hentry
    rw [hentry, ← computeTargetRaw_eq]
    simp [hduration]
  · obtain ⟨par, hfollows⟩ := h.follows hbooks hpag
    refine (h.exists_entries_iff hbooks hrooted hfollows ?_).2
      (h.closesEpoch hbooks hrooted hfollows hodd hduration)
    rintro hzero
    rw [hzero] at hodd
    exact absurd hodd (by decide)

end Runs
/-! ### An even window -/

section EvenWindow

-- What the four pages below hash.
local instance evenTip5 : Tip5 :=
  tableTip5 [.atom 0, toNoun (Bignum.mk [0]), toNoun (Bignum.mk [3]), toNoun (Bignum.mk [6]),
      toNoun (Bignum.mk [9]), toNoun (Bignum.mk [12]), .atom 1, .atom 2, .atom 3, .atom 10, .atom 5,
      .atom 7, .atom (2 ^ 32)]
    ([(0, 0), (4, 1), (2, 3), (0, 5), (0, 7), (0, 9), (0, 11), (0, 13), (0, 15), (1, 24), (19, 1),
      (12, 0), (6, 23), (2, 25), (0, 27), (18, 29), (21, 31), (0, 33), (17, 35), (0, 37), (14, 0),
      (8, 41), (2, 43), (0, 45), (20, 47), (21, 49), (0, 51), (39, 53), (0, 55), (16, 0), (10, 59),
      (2, 61), (0, 63), (22, 65), (21, 67), (0, 69), (57, 71), (0, 73)].map
        fun x => (.ofNat x.1, .ofNat x.2))

local instance evenPow : Pow := firstPow

local instance evenCheetah : Cheetah := ⟨fun _ _ _ _ => false⟩

local instance evenCurve : Curve := ⟨fun _ => true⟩

/-- A window of two blocks, and epochs of one. -/
def evenConfig : Config :=
  { bc := { genesisTargetAtom := 0, maxTargetAtom := 3, checkPowFlag := false,
            firstMonthCoinbaseMin := 0, coinbaseTimelockMin := 0, blocksPerEpoch := 1,
            minPastBlocks := 2, targetEpochDuration := 4 }
    genesisSeal := some (.ofNat 0)
    realnetGenesisMsg := .ofNat 1000
    checkpointedDigests := ∅ }

def evenGenesis : Page := plainGenesis 17 0

/-- A page on top of another. -/
def evenPage (digest : Nat) (par : Page) (timestamp work : Nat) : Page :=
  { par with
    digest := .ofNat digest
    parent := par.digest
    coinbase := .v0 (ZMap.put ∅ ⟨0, ∅⟩ (2 ^ 32))
    timestamp
    accumulatedWork := ⟨[work]⟩
    height := par.height + 1 }

/-- The medians of two timestamps are 0, 5 and 7; that of the last page would be 6. -/
def evenPage1 : Page := evenPage 39 evenGenesis 10 6

def evenPage2 : Page := evenPage 57 evenPage1 5 9

def evenPage3 : Page := evenPage 75 evenPage2 7 12

def evenPokes : List (Wire × Nat × Cause) :=
  (.sys, 0, .btcData none) :: (.sys, 0, .born) ::
    [evenGenesis, evenPage1, evenPage2].map fun pag => (.libp2p 0, 0, .heardBlock pag)

abbrev EvenEnd (k : Kernel) : Prop :=
  k.c.minTimestamps.get (.ofNat 57) = some 7 ∧
    k.c.validatePageWithoutTxs evenConfig evenPage3 0 = some (.ok ()) ∧
    (k.c.validatePageWithTxs evenConfig.bc evenPage3).any Except.isOk = true ∧
    ((k.c.updateMinTimestamps evenConfig.bc evenPage3).bind (·.get (.ofNat 75))) = some 6 ∧
    k.poke evenConfig (.libp2p 0) 0 (.heardBlock evenPage3) = none

/-- With an even window the median time falls, and the epoch that the page would close crashes the
node that hears it. -/
theorem minTimestamps_fall_even : ∃ k : Kernel, Kernel.Reachable evenConfig k ∧
    k.c.minTimestamps.get evenPage3.parent = some 7 ∧
    k.c.validatePageWithoutTxs evenConfig evenPage3 0 = some (.ok ()) ∧
    (k.c.validatePageWithTxs evenConfig.bc evenPage3).any Except.isOk = true ∧
    ((k.c.updateMinTimestamps evenConfig.bc evenPage3).bind (·.get evenPage3.digest)) = some 6 ∧
    k.poke evenConfig (.libp2p 0) 0 (.heardBlock evenPage3) = none := by
  obtain ⟨k, hrun, hend⟩ : ∃ k, (default : Kernel).pokes evenConfig evenPokes = some k ∧
      EvenEnd k := exists_some_of_any EvenEnd (by decide +kernel)
  exact ⟨k, .pokes .init hrun, hend⟩

def oddConfig : Config := { evenConfig with bc := { evenConfig.bc with minPastBlocks := 3 } }

/-- With a window of three blocks the same pages enter the chain, and the median time rises. -/
theorem medianTime_retarget_odd : ∃ k : Kernel, k.c.blocks.get evenPage3.digest = some evenPage3 ∧
    ∃ t t', k.c.minTimestamps.get evenPage3.parent = some t ∧
      k.c.minTimestamps.get evenPage3.digest = some t' ∧ t ≤ t' := by
  obtain ⟨k, hrun, hblock⟩ : ∃ k, (default : Kernel).pokes oddConfig
      (evenPokes ++ [(.libp2p 0, 0, .heardBlock evenPage3)]) = some k ∧
      k.c.blocks.get evenPage3.digest = some evenPage3 :=
    exists_some_of_any (fun k : Kernel => k.c.blocks.get evenPage3.digest = some evenPage3)
      (by decide +kernel)
  have htime := medianTime_retarget (.pokes .init hrun) ⟨1, rfl⟩ (by decide)
  exact ⟨k, hblock, htime.1 _ _ hblock (by decide)⟩

end EvenWindow

end Nockchain.Consensus
