import Nockchain.Proofs.Consensus.Kernel

/-!
# `Nockchain.Proofs.Consensus.HeaviestChain`: the index of the heaviest chain

`update` of `derived.hoon` walks back from the heaviest block and stops at the
first entry that is right already. It relies on two things: that an entry which
is right has the right entries below it, and that there is no entry above the
heaviest block. Both hold as long as the heaviest block never gets lower. When a
heavier chain is the shorter one, the entries above its tip stay: the index is
exact after every accepted block exactly if no accepted block lowers the
heaviest one (`exact_iff_climbs`).
-/

set_option autoImplicit false

namespace Nockchain.Consensus

open Lib TxEngine State Derived Bignum

section Index

variable [Tip5]

namespace State

/-- `x` is the block `y` or one of its ancestors. Genesis names a bitcoin block as its parent. -/
inductive Ancestor (c : State) (x : Digest) : Digest → Prop where
  | self : Ancestor c x x
  | parent {y : Digest} {pag : Page} (hget : c.blocks.get y = some pag) (hheight : pag.height ≠ 0)
      (h : Ancestor c x pag.parent) : Ancestor c x y

/-- The height of the heaviest block. -/
def heaviestHeight (c : State) : Nat := c.getCurHeight.getD 0

/-- The blocks have their parents one height below. -/
def Rooted (c : State) : Prop :=
  ∀ x pag, c.BlockAt x pag → pag.height ≠ 0 →
    ∃ par, c.blocks.get pag.parent = some par ∧ pag.height = par.height + 1

end State

/-- The index is exact: it has the ancestor of the heaviest block at each height up to that block,
and nothing above. -/
def Exact (c : State) (d : Derived) : Prop :=
  ∀ heaviest tip, c.heaviestBlock = some heaviest → c.blocks.get heaviest = some tip →
    (∀ h ≤ tip.height, ∃ x pag, d.heaviestChain.get h = some x ∧ c.blocks.get x = some pag ∧
      pag.height = h ∧ c.Ancestor x heaviest) ∧
    ∀ h, tip.height < h → d.heaviestChain.get h = none

/-! ### The walk -/

/-- `m` has the block `y` at a height, and its ancestors below. -/
def Indexes (c : State) (m : ZMap Nat Digest) : Nat → Digest → Prop
  | 0, y => m.get 0 = some y
  | h + 1, y => m.get (h + 1) = some y ∧ ∃ pag, c.blocks.get y = some pag ∧ Indexes c m h pag.parent

namespace Indexes

variable {c c' : State} {m m' : ZMap Nat Digest} {h : Nat} {y : Digest}

theorem get (hy : Indexes c m h y) : m.get h = some y := by
  cases h with
  | zero => exact hy
  | succ h => exact hy.1

/-- Only the entries up to the block matter, and a block once accepted stays. -/
theorem congr (hy : Indexes c m h y) (hm : ∀ i ≤ h, m'.get i = m.get i)
    (hblocks : ∀ x pag, c.blocks.get x = some pag → c'.blocks.get x = some pag) :
    Indexes c' m' h y := by
  induction h generalizing y with
  | zero => exact (hm 0 le_rfl).trans hy
  | succ h ih =>
    obtain ⟨hget, pag, hpag, hpar⟩ := hy
    refine ⟨(hm _ le_rfl).trans hget, pag, hblocks _ _ hpag, ih hpar fun i hi => ?_⟩
    exact hm i (Nat.le_succ_of_le hi)

/-- The entries below a right one are right. -/
theorem of_le (hy : Indexes c m h y) {i : Nat} (hi : i ≤ h) : ∃ x, Indexes c m i x := by
  induction h generalizing y with
  | zero =>
    obtain rfl : i = 0 := Nat.le_zero.1 hi
    exact ⟨y, hy⟩
  | succ h ih =>
    rcases Nat.lt_or_eq_of_le hi with hlt | rfl
    · obtain ⟨-, pag, -, hpar⟩ := hy
      exact ih hpar (Nat.lt_succ_iff.1 hlt)
    · exact ⟨y, hy⟩

end Indexes

/-- The walk leaves the entries above its start alone. -/
theorem get_revise_above {c : State} {m m' : ZMap Nat Digest} {h : Nat} {y : Digest}
    (hm' : revise c h y m = some m') {i : Nat} (hi : h < i) : m'.get i = m.get i := by
  fun_induction revise c h y m with
  | case1 | case3 =>
    cases hm'
    rfl
  | case2 =>
    cases hm'
    rw [ZMap.get_put, if_neg (Nat.ne_of_gt hi)]
  | case4 h y m _ _ ih =>
    obtain ⟨pag, -, hm'⟩ := bind_eq_some.1 hm'
    rw [ih pag hm' (Nat.lt_of_succ_lt hi), ZMap.get_put, if_neg (Nat.ne_of_gt hi)]

/-- The walk leaves its start in the index. -/
theorem get_revise_start {c : State} {m m' : ZMap Nat Digest} {h : Nat} {y : Digest}
    (hm' : revise c h y m = some m') : m'.get h = some y := by
  fun_induction revise c h y m with
  | case1 _ _ hget | case3 _ _ _ hget =>
    cases hm'
    exact hget
  | case2 =>
    cases hm'
    rw [ZMap.get_put, if_pos rfl]
  | case4 h =>
    obtain ⟨pag, -, hm'⟩ := bind_eq_some.1 hm'
    rw [get_revise_above hm' (Nat.lt_succ_self h), ZMap.get_put, if_pos rfl]

/-- The walk makes the index right from its start down, if each entry that it may stop at has the
right ones below it. -/
theorem indexes_of_revise {c : State} {m m' : ZMap Nat Digest} {h : Nat} {y : Digest}
    (hclosed : ∀ i ≤ h, ∀ x, m.get i = some x → Indexes c m i x)
    (hm' : revise c h y m = some m') : Indexes c m' h y := by
  have hstart := get_revise_start hm'
  induction h generalizing y m with
  | zero => exact hstart
  | succ h ih =>
    unfold revise at hm'
    split_ifs at hm' with hget
    · cases hm'
      exact hclosed _ le_rfl y hget
    obtain ⟨pag, hpag, hm'⟩ := bind_eq_some.1 hm'
    have hput : ∀ i ≤ h, (m.put (h + 1) y).get i = m.get i := by
      intro i hi
      rw [ZMap.get_put, if_neg (by omega)]
    -- The entry just made is above all that the rest of the walk reads.
    have hbelow : Indexes c m' h pag.parent := by
      refine ih (fun i hi x hx => ?_) hm' (get_revise_start hm')
      rw [hput i hi] at hx
      exact (hclosed i (Nat.le_succ_of_le hi) x hx).congr
        (fun j hj => hput j (hj.trans hi)) fun _ _ hget => hget
    exact ⟨hstart, pag, hpag, hbelow⟩

variable {pag : Page}

theorem update_eq_some {c : State} {d d' : Derived} {tip : Page} {y : Digest}
    (hy : c.heaviestBlock = some y) (htip : c.blocks.get y = some tip)
    (h : d.update c pag = some d') :
    revise c tip.height tip.digest d.heaviestChain = some d'.heaviestChain := by
  simp only [update, hy, htip, Option.bind_eq_bind, Option.bind_some] at h
  obtain ⟨m, hm, h⟩ := bind_eq_some.1 h
  cases h
  exact hm

/-! ### The invariant -/

/-- What `update` relies on. -/
structure Indexed (c : State) (d : Derived) : Prop where
  indexes : ∀ y, c.heaviestBlock = some y → ∃ tip, c.blocks.get y = some tip ∧
    Indexes c d.heaviestChain tip.height y
  above : ∀ i, (c.heaviestBlock = none ∨ c.heaviestHeight < i) → d.heaviestChain.get i = none

theorem State.heaviestHeight_eq {c : State} {y : Digest} {tip : Page}
    (hy : c.heaviestBlock = some y) (htip : c.blocks.get y = some tip) :
    c.heaviestHeight = tip.height := by
  simp [heaviestHeight, getCurHeight, hy, htip]

namespace Indexed

variable {c : State} {d : Derived}

theorem init : Indexed (default : State) (default : Derived) where
  indexes _ hy := by cases hy
  above _ _ := rfl

/-- Every entry has its ancestors below it. -/
theorem closed (h : Indexed c d) {i : Nat} {x : Digest} (hx : d.heaviestChain.get i = some x) :
    Indexes c d.heaviestChain i x := by
  cases hy : c.heaviestBlock with
  | none =>
    rw [h.above i (.inl hy)] at hx
    cases hx
  | some y =>
    obtain ⟨tip, htip, hindexes⟩ := h.indexes y hy
    have hle : i ≤ tip.height := by
      by_contra hgt
      rw [h.above i (.inr (by rw [heaviestHeight_eq hy htip]; omega))] at hx
      cases hx
    obtain ⟨z, hz⟩ := hindexes.of_le hle
    obtain rfl : z = x := Option.mem_unique hz.get hx
    exact hz

/-- The index of a rooted chain is exact. -/
theorem exact (h : Indexed c d) (hrooted : c.Rooted) : Exact c d := by
  intro y tip hy htip
  have habove : ∀ i, tip.height < i → d.heaviestChain.get i = none := fun i hi =>
    h.above i (.inr (by rwa [heaviestHeight_eq hy htip]))
  refine ⟨fun i hi => ?_, habove⟩
  obtain ⟨tip', htip', hindexes⟩ := h.indexes y hy
  obtain rfl : tip' = tip := Option.mem_unique htip' htip
  clear habove hy htip'
  -- Down the chain from its tip.
  generalize hn : tip'.height = n at hindexes hi
  induction n generalizing y tip' with
  | zero =>
    obtain rfl : i = 0 := Nat.le_zero.1 hi
    exact ⟨y, tip', hindexes.get, htip, hn, .self⟩
  | succ n ih =>
    rcases Nat.lt_or_eq_of_le hi with hlt | rfl
    · obtain ⟨-, pag, hpag, hbelow⟩ := hindexes
      obtain rfl : pag = tip' := Option.mem_unique hpag htip
      have hne : pag.height ≠ 0 := by omega
      obtain ⟨par, hpar, heq⟩ := hrooted y pag (.inl hpag) hne
      obtain ⟨x, page, hx, hpage, hheight, hanc⟩ :=
        ih pag.parent par hpar (by omega) hbelow (Nat.lt_succ_iff.1 hlt)
      exact ⟨x, page, hx, hpage, hheight, .parent hpag hne hanc⟩
    · exact ⟨y, tip', hindexes.get, htip, hn, .self⟩

end Indexed

/-! ### The heaviest block -/

variable {acc : TxAcc}

section Checked

variable [Pow] [Cheetah] {cfg : Config} {c c' : State}

theorem State.Rooted.of_reachable (h : Reachable cfg c) : c.Rooted := by
  intro x pag hat
  refine h.blockAt_of (P := fun c pag => pag.height ≠ 0 →
    ∃ par, c.blocks.get pag.parent = some par ∧ pag.height = par.height + 1) ?_ ?_ ?_ x pag hat
  · intro c c' pag hkeeps hpag hheight
    obtain ⟨par, hpar, heq⟩ := hpag hheight
    exact ⟨par, hkeeps _ _ hpar, heq⟩
  · intro c pag hgenesis hheight
    exact absurd hgenesis.height hheight
  · intro c pag heard _
    obtain ⟨par, nowSecs, hpage⟩ := heard.pageChecked
    exact ⟨par, hpage.parent, hpage.height⟩

end Checked

/-! ### Turns -/

section Turns

variable [Pow] [Cheetah] {cfg : Config} {c c' : State} {d d' : Derived}

section Accepted

variable (h : AcceptedBlock cfg c d pag acc c' d') (henters : Enters cfg c pag acc)
include h henters

/-- An accepted block enters the chain, and is the heaviest one if it outweighs the one before. -/
theorem AcceptedBlock.heaviest_cases : c.blocks.get pag.digest = none ∧
      (∀ x, c'.blocks.get x = if x = pag.digest then some pag else c.blocks.get x) ∧
      (c.heaviestBlock = none ∧ c'.heaviestBlock = some pag.digest ∨
        ∃ y old, c.heaviestBlock = some y ∧ c'.blocks.get y = some old ∧ c'.heaviestBlock =
          if old.accumulatedWork.merge < pag.accumulatedWork.merge then some pag.digest
          else some y) := by
  obtain ⟨entered, heavy, hentered, hheavy, hlast⟩ := h.consensus
  have haccepted := acceptedPage_of_eq_some hentered
  have hsame : c'.chain = entered.chain ∧ c'.heaviestBlock = heavy.heaviestBlock := by
    rcases hlast with ⟨-, rfl⟩ | ⟨retain, hgc⟩
    · exact ⟨chain_updateHeaviest hheavy, rfl⟩
    · exact ⟨(chain_garbageCollect hgc).trans (chain_updateHeaviest hheavy),
        heaviestBlock_garbageCollect hgc⟩
  have hblocks : c'.blocks = entered.blocks := congrArg State.Chain.blocks hsame.1
  refine ⟨haccepted.fresh, fun x => ?_, ?_⟩
  · rw [hblocks]
    split_ifs with hx
    · rw [hx, henters.block hentered]
    · rw [haccepted.blocks, ZMap.get_put, if_neg hx]
  · rw [hsame.2, hblocks, ← (mempool_acceptPage hentered).1]
    obtain ⟨x, rfl, ⟨hnone, rfl⟩ | ⟨y, old, hy, hold, rfl⟩⟩ := updateHeaviest_cases hheavy
    · exact .inl ⟨hnone, rfl⟩
    · exact .inr ⟨y, old, hy, hold, apply_ite some _ _ _⟩

/-- After an accepted block the index is that of a walk from the heaviest block. -/
theorem AcceptedBlock.revised (hc : Reachable cfg c) :
    (∀ x page, c.blocks.get x = some page → c'.blocks.get x = some page) ∧
      ∃ y tip, c'.heaviestBlock = some y ∧ c'.blocks.get y = some tip ∧
        revise c' tip.height y d.heaviestChain = some d'.heaviestChain := by
  have hbooks : c'.Bookkeeping :=
    .of_reachable (hc.steps (Turn.accept henters h).steps)
  obtain ⟨hfresh, hblocks, hheaviest⟩ := h.heaviest_cases henters
  have hkeeps : ∀ x page, c.blocks.get x = some page → c'.blocks.get x = some page := by
    intro x page hget
    have hne : x ≠ pag.digest := by
      rintro rfl
      rw [hfresh] at hget
      cases hget
    rwa [hblocks, if_neg hne]
  have hpag : c'.blocks.get pag.digest = some pag := by rw [hblocks, if_pos rfl]
  obtain ⟨y, tip, hy, htip⟩ : ∃ y tip, c'.heaviestBlock = some y ∧ c'.blocks.get y = some tip := by
    rcases hheaviest with ⟨-, hnew⟩ | ⟨y, old, -, hold, hnew⟩
    · exact ⟨_, pag, hnew, hpag⟩
    · split at hnew
      · exact ⟨_, pag, hnew, hpag⟩
      · exact ⟨y, old, hnew, hold⟩
  refine ⟨hkeeps, y, tip, hy, htip, ?_⟩
  have hdigest : tip.digest = y := hbooks.digest y tip (.inl htip)
  rw [← hdigest]
  exact update_eq_some hy htip h.derived

theorem AcceptedBlock.indexed (hc : Reachable cfg c) (hindexed : Indexed c d)
    (hclimbs : c.heaviestHeight ≤ c'.heaviestHeight) : Indexed c' d' := by
  obtain ⟨hkeeps, y, tip, hy, htip, hrevise⟩ := h.revised henters hc
  rw [heaviestHeight_eq hy htip] at hclimbs
  constructor
  · intro y' hy'
    obtain rfl : y = y' := Option.mem_unique hy hy'
    refine ⟨tip, htip, indexes_of_revise (fun i _ x hx => ?_) hrevise⟩
    exact (hindexed.closed hx).congr (fun _ _ => rfl) hkeeps
  · intro i hi
    have hlt : tip.height < i := by
      rcases hi with hnone | hlt
      · rw [hy] at hnone
        cases hnone
      · rwa [heaviestHeight_eq hy htip] at hlt
    rw [get_revise_above hrevise hlt]
    exact hindexed.above i (.inr (lt_of_le_of_lt hclimbs hlt))

/-- A walk from a lower block leaves the entry of the old tip. -/
theorem AcceptedBlock.climbs (hc : Reachable cfg c) (hindexed : Indexed c d)
    (hexact : Exact c' d') : c.heaviestHeight ≤ c'.heaviestHeight := by
  obtain ⟨-, y, tip, hy, htip, hrevise⟩ := h.revised henters hc
  by_contra hlt
  rw [heaviestHeight_eq hy htip, not_le] at hlt
  have hnone : d.heaviestChain.get c.heaviestHeight = none := by
    rw [← get_revise_above hrevise hlt]
    exact (hexact y tip hy htip).2 _ hlt
  cases hold : c.heaviestBlock with
  | none => simp [heaviestHeight, getCurHeight, hold] at hlt
  | some x =>
    obtain ⟨oldTip, holdTip, hindexes⟩ := hindexed.indexes x hold
    rw [heaviestHeight_eq hold holdTip, hindexes.get] at hnone
    cases hnone

end Accepted

/-- The heaviest block does not get lower. -/
def Climbs (x y : State × Derived) : Prop := x.1.heaviestHeight ≤ y.1.heaviestHeight

omit [TxEngine.Pow] [Cheetah] in
theorem Indexed.of_chain (h : Indexed c d) (hchain : c'.chain = c.chain)
    (hheaviest : c'.heaviestBlock = c.heaviestBlock) : Indexed c' d := by
  have hblocks : c'.blocks = c.blocks := congrArg State.Chain.blocks hchain
  have hheight : c'.heaviestHeight = c.heaviestHeight := by
    rw [heaviestHeight, getCurHeight, hheaviest, hblocks]
    rfl
  constructor
  · intro y hy
    rw [hheaviest] at hy
    obtain ⟨tip, htip, hindexes⟩ := h.indexes y hy
    exact ⟨tip, hblocks ▸ htip, hindexes.congr (fun _ _ => rfl) fun _ _ hget => hblocks ▸ hget⟩
  · intro i hi
    rw [hheaviest, hheight] at hi
    exact h.above i hi

theorem Turn.indexed {x y : State × Derived} (h : Turn cfg x y) (hx : Reachable cfg x.1)
    (hindexed : Indexed x.1 x.2) (hclimbs : Climbs x y) : Indexed y.1 y.2 := by
  cases h with
  | mempool _ hchain hheaviest => exact hindexed.of_chain hchain hheaviest
  | highest => exact ⟨hindexed.indexes, hindexed.above⟩
  | accept henters h => exact h.indexed henters hx hindexed hclimbs

theorem Turn.climbs {x y : State × Derived} (h : Turn cfg x y) (hx : Reachable cfg x.1)
    (hindexed : Indexed x.1 x.2) (hexact : Exact y.1 y.2) : Climbs x y := by
  cases h with
  | mempool _ hchain hheaviest =>
    have hblocks := congrArg State.Chain.blocks hchain
    simp only [chain] at hblocks
    simp [Climbs, heaviestHeight, getCurHeight, hheaviest, hblocks]
  | highest => exact le_rfl
  | accept henters h => exact h.climbs henters hx hindexed hexact

theorem exact_iff_climbs_of_indexed {x : State × Derived} {l : List (State × Derived)}
    (h : List.IsChain (Turn cfg) (x :: l)) (hx : Reachable cfg x.1) (hindexed : Indexed x.1 x.2) :
    (∀ y ∈ l, Exact y.1 y.2) ↔ List.IsChain Climbs (x :: l) := by
  induction l generalizing x with
  | nil => simp
  | cons y l ih =>
    obtain ⟨hturn, hrest⟩ := List.isChain_cons_cons.1 h
    have hy : Reachable cfg y.1 := hx.steps hturn.steps
    rw [List.isChain_cons_cons, List.forall_mem_cons]
    constructor
    · intro hexact
      have hclimbs := hturn.climbs hx hindexed hexact.1
      exact ⟨hclimbs, (ih hrest hy (hturn.indexed hx hindexed hclimbs)).1 hexact.2⟩
    · intro hclimbs
      have hy' := hturn.indexed hx hindexed hclimbs.1
      exact ⟨hy'.exact (.of_reachable hy), (ih hrest hy hy').2 hclimbs.2⟩

/-- In a run of a node, the index of the heaviest chain is exact after every turn exactly if no turn
lowers the heaviest block. -/
theorem exact_iff_climbs {l : List (State × Derived)}
    (h : List.IsChain (Turn cfg) ((default, default) :: l)) :
    (∀ x ∈ l, Exact x.1 x.2) ↔ List.IsChain Climbs ((default, default) :: l) :=
  exact_iff_climbs_of_indexed h .init .init

end Turns

end Index

/-! ### A heavier chain that is shorter -/

section Shorter

-- What the six pages below and the names of their coinbases hash.
local instance shorterTip5 : Tip5 :=
  tableTip5
    [.atom 0, toNoun (mk [15]), toNoun (mk [3]), .atom (2 ^ 32), .atom 1, .atom 16,
      toNoun (mk [18]), .atom 32, toNoun (mk [12]), toNoun (mk [22]), .atom 2,
      .atom 48, toNoun (mk [48]), toNoun (mk [23]), .atom 3, toNoun (mk [0]),
      toNoun (mk [81])]
    ([(0, 0), (8, 0), (20, 0), (28, 0), (4, 1), (1, 6), (1, 0), (12, 3), (18, 5), (26, 7), (32, 5),
      (2, 9), (11, 1), (8, 13), (4, 15), (16, 17), (24, 19), (30, 21), (0, 23), (0, 27), (0, 29),
      (0, 31), (0, 33), (0, 35), (0, 37), (10, 41), (14, 43), (22, 45), (8, 41), (20, 47), (0, 49),
      (25, 51), (25, 53), (25, 55), (25, 57), (25, 59), (0, 61), (0, 63), (0, 65), (0, 67), (0, 69),
      (0, 71), (0, 73), (0, 85), (87, 0), (87, 75), (87, 81), (89, 1), (0, 91), (0, 93), (0, 95),
      (97, 0), (97, 77), (99, 0), (99, 83), (103, 1), (0, 105), (107, 1), (0, 109), (0, 111),
      (113, 0), (113, 79), (0, 115), (121, 1), (0, 123), (0, 127)].map
        fun x => (.ofNat x.1, .ofNat x.2))

local instance shorterPow : Pow := firstPow

local instance shorterCheetah : Cheetah := ⟨fun _ _ _ _ => false⟩

local instance shorterCurve : Curve := ⟨fun _ => true⟩

/-- Epochs of one block, so that the target follows the timestamps at once. -/
def shorterConfig : Config :=
  { bc := { genesisTargetAtom := 15, maxTargetAtom := 63, checkPowFlag := false,
            firstMonthCoinbaseMin := 0, coinbaseTimelockMin := 0, blocksPerEpoch := 1,
            minPastBlocks := 1, targetEpochDuration := 4 }
    genesisSeal := some (.ofNat 0)
    realnetGenesisMsg := .ofNat 1000
    checkpointedDigests := ∅ }

def shorterGenesis : Page := plainGenesis 87 15

/-- A page on top of another. -/
def shorterPage (digest : Nat) (par : Page) (timestamp target work : Nat) : Page :=
  { par with
    digest := .ofNat digest
    parent := par.digest
    coinbase := .v0 (ZMap.put ∅ ⟨0, ∅⟩ (2 ^ 32))
    timestamp
    target := ⟨[target]⟩
    accumulatedWork := ⟨[work]⟩
    height := par.height + 1 }

/-- A slow chain of three pages, whose targets get easier. -/
def slowPage1 : Page := shorterPage 97 shorterGenesis 16 3 18

def slowPage2 : Page := shorterPage 113 slowPage1 32 12 22

def slowPage3 : Page := shorterPage 129 slowPage2 48 48 23

/-- A fast chain of two, whose targets get harder. -/
def fastPage1 : Page := shorterPage 99 shorterGenesis 1 3 18

def fastPage2 : Page := shorterPage 117 fastPage1 2 0 81

/-- A node that hears genesis, the slow chain and then the fast one. -/
def shorterPokes : List (Wire × Nat × Cause) :=
  (.sys, 0, .btcData none) :: (.sys, 0, .born) ::
    [shorterGenesis, slowPage1, slowPage2, slowPage3, fastPage1, fastPage2].map fun pag =>
      (.libp2p 0, 0, .heardBlock pag)

/-- The fast chain is the heaviest one, and the slow one has left its tip in the index. -/
abbrev ShorterEnd (k : Kernel) : Prop :=
  k.c.heaviestBlock = some fastPage2.digest ∧ k.c.blocks.get fastPage2.digest = some fastPage2 ∧
    k.d.heaviestChain.get 3 = some slowPage3.digest ∧
    k.d.highestBlockHeight = some 3 ∧
    (k.c.balance.get fastPage2.digest).isSome

theorem exists_shorterEnd :
    ∃ k, (default : Kernel).pokes shorterConfig shorterPokes = some k ∧ ShorterEnd k :=
  exists_some_of_any ShorterEnd (by decide +kernel)

theorem not_exact_of_shorterEnd {k : Kernel} (h : ShorterEnd k) : ¬ Exact k.c k.d := by
  obtain ⟨hheaviest, hblock, hstale, -⟩ := h
  intro hexact
  have hnone := (hexact _ _ hheaviest hblock).2 3 (by decide)
  rw [hstale] at hnone
  cases hnone

/-- The index keeps the tip of the longer chain, above the heaviest block. -/
theorem not_exact_shorter : ∃ k : Kernel, Kernel.Reachable shorterConfig k ∧ ¬ Exact k.c k.d := by
  obtain ⟨k, hrun, hend⟩ := exists_shorterEnd
  exact ⟨k, .pokes .init hrun, not_exact_of_shorterEnd hend⟩

/-- A turn of that run lowers the heaviest block. -/
theorem exact_iff_climbs_shorter : ∃ l : List (State × Derived),
    List.IsChain (Turn shorterConfig) ((default, default) :: l) ∧
      ¬ List.IsChain Climbs ((default, default) :: l) := by
  obtain ⟨k, hrun, hend⟩ := exists_shorterEnd
  have hk : Kernel.Reachable shorterConfig k := .pokes .init hrun
  obtain ⟨l, hl, hlast⟩ := List.exists_isChain_cons_of_relationReflTransGen hk.takes
  refine ⟨l, hl, fun hclimbs => ?_⟩
  have hexact := (exact_iff_climbs hl).2 hclimbs
  cases l with
  | nil =>
    -- The empty state has no heaviest block.
    have hempty : (default : State) = k.c := congrArg Prod.fst hlast
    have hnone : (default : State).heaviestBlock = some fastPage2.digest := hempty ▸ hend.1
    cases hnone
  | cons x l =>
    have hmem : (k.c, k.d) ∈ x :: l := by
      rw [← hlast]
      exact List.getLast_mem _
    exact not_exact_of_shorterEnd hend (hexact _ hmem)

end Shorter

end Nockchain.Consensus
