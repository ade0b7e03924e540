import Nockchain.Consensus.Kernel
import Nockchain.Proofs.Consensus.Supply

/-!
# `Nockchain.Proofs.Consensus.Load`: when the checkpoints are checked

A saved state whose chain differs from a checkpoint is to be dropped, all but the
settings of the operator. `checks_iff` says when that happens: the
loop looks at the first checkpoint only whose height the chain has, it looks at none
away from the main network, and it loses the init flag.
-/

set_option autoImplicit false

namespace Nockchain.Consensus.Kernel

open Lib TxEngine Option

section

variable [Tip5] {cfg : Config} {k : Kernel}

/-- The heaviest chain has no other block at the height of a checkpoint. -/
def Matches (cfg : Config) (k : Kernel) : Prop :=
  ∀ height id blockId, cfg.checkpointedDigests.get height = some id →
    k.d.heaviestChain.get height = some blockId → blockId = id

/-- The default state with the settings of the operator. -/
def reset (k : Kernel) : Kernel :=
  { (default : Kernel) with
    m := { (default : Mining) with
      mining := k.m.mining, shares := k.m.shares, v0Shares := k.m.v0Shares }
    init := k.init }

/-- The first checkpoint whose height the heaviest chain has. -/
def firstCheckpoint (cfg : Config) (k : Kernel) : Option (Nat × Digest) :=
  cfg.checkpointedDigests.tap.find? fun x => (k.d.heaviestChain.get x.1).isSome

theorem checkFrom_eq (l : List (Nat × Digest)) : k.checkFrom l =
    match l.find? fun x => (k.d.heaviestChain.get x.1).isSome with
    | none => k
    | some x => if k.d.heaviestChain.get x.1 = some x.2 then k else { k.reset with init := true } := by
  induction l with
  | nil => rfl
  | cons x l ih =>
    cases hget : k.d.heaviestChain.get x.1 with
    | none => simp [checkFrom, hget, ih]
    | some blockId =>
      simp only [checkFrom, hget, List.find?_cons, isSome_some, some_inj, ne_eq,
        ite_not]
      rfl

/-- What `check-checkpoints` is for holds of the state. -/
def Checks (cfg : Config) (k : Kernel) : Prop :=
  ∃ k', k.checkCheckpoints cfg = some k' ∧ (k.Matches cfg → k' = k) ∧
    (¬ k.Matches cfg → k' = k.reset)

theorem ne_reset (h : ¬ k.Matches cfg) : k ≠ k.reset := by
  intro heq
  refine h fun height id blockId _ hget => ?_
  rw [heq] at hget
  cases hget

theorem checkFrom_of_matches (h : k.Matches cfg) : k.checkFrom cfg.checkpointedDigests.tap = k := by
  rw [checkFrom_eq]
  split
  case h_1 => rfl
  case h_2 x hfirst =>
    have hsome := List.find?_some hfirst
    obtain ⟨blockId, hget⟩ := isSome_iff_exists.1 hsome
    rw [if_pos]
    rw [hget, h _ _ _ (ZMap.mem_tap.1 (List.mem_of_find?_eq_some hfirst)) hget]

/-- The loop resets the state in full if it sees the mismatch and there is no init flag to lose. -/
theorem checkFrom_eq_reset (h : ¬ k.Matches cfg) :
    k.checkFrom cfg.checkpointedDigests.tap = k.reset ↔ k.init ∧
      ∃ x, k.firstCheckpoint cfg = some x ∧ k.d.heaviestChain.get x.1 ≠ some x.2 := by
  rw [checkFrom_eq, ← firstCheckpoint]
  cases hfirst : k.firstCheckpoint cfg with
  | none =>
    refine iff_of_false (ne_reset h) ?_
    rintro ⟨-, x, hsome, -⟩
    cases hsome
  | some x =>
    simp only [some_inj, exists_eq_left']
    by_cases hget : k.d.heaviestChain.get x.1 = some x.2
    · rw [if_pos hget]
      exact iff_of_false (ne_reset h) fun hne => hne.2 hget
    · rw [if_neg hget, and_iff_left hget]
      exact ⟨fun heq => (congrArg init heq).symm, fun hinit => by rw [reset, hinit]⟩

/-- The checkpoints are checked as they should be where all match, and elsewhere on the main
network only, if the first of them that the chain reaches fails and the init flag is the default
one. -/
theorem checks_iff (cfg : Config) (k : Kernel) : k.Checks cfg ↔
    k.isMainnet cfg ≠ none ∧ (k.Matches cfg ∨ k.isMainnet cfg = some (some true) ∧ k.init = true ∧
      ∃ x, k.firstCheckpoint cfg = some x ∧ k.d.heaviestChain.get x.1 ≠ some x.2) := by
  unfold Checks checkCheckpoints
  cases hmain : k.isMainnet cfg with
  | none => simp
  | some mainnet =>
    simp only [bind_eq_bind, bind_some, some_inj, ne_eq, reduceCtorEq,
      not_false_eq_true, true_and]
    by_cases hmatch : k.Matches cfg
    · simp only [hmatch, checkFrom_of_matches, ite_self, true_or, iff_true]
      exact ⟨k, rfl, fun _ => rfl, fun h => absurd trivial h⟩
    rw [← checkFrom_eq_reset hmatch]
    simp only [hmatch, false_or]
    split
    case isTrue hyes => simp [hyes]
    case isFalse hno => simp [hno, ne_reset hmatch]

end

section Mismatch

local instance mismatchTip5 : Tip5 := firstTip5

/-- A main network with one checkpoint. -/
def mismatchConfig : Config :=
  { bc := {}, genesisSeal := some (.ofNat 1), realnetGenesisMsg := .ofNat 1
    checkpointedDigests := ZMap.put ∅ 0 (.ofNat 10) }

/-- A node that is set up, on another chain. -/
def mismatchKernel : Kernel :=
  { (default : Kernel) with d := ⟨some 0, ZMap.put ∅ 0 (.ofNat 11)⟩, init := false }

/-- The node forgets that it is set up. -/
theorem not_checks_mismatch : ¬ mismatchKernel.Checks mismatchConfig := by
  rintro ⟨k', hrun, hsame, hreset⟩
  have hinit : (mismatchKernel.checkCheckpoints mismatchConfig).map (·.init) = some true := by
    decide +kernel
  rw [hrun] at hinit
  by_cases hmatch : mismatchKernel.Matches mismatchConfig
  · rw [hsame hmatch] at hinit
    cases hinit
  · rw [hreset hmatch] at hinit
    cases hinit

end Mismatch

end Nockchain.Consensus.Kernel
