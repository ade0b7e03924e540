import Nockchain.Proofs.HashTable
import Nockchain.Proofs.TxEngine.Conservation

/-!
# `Nockchain.Proofs.TxEngine.Collected`: what an output takes from its seeds

Both versions collect the seeds of a transaction by a key, the recipient in version 0 and the lock
root in version 1, and make one note of the seeds with one key. `Collects` says what is collected:
an output for each key, with the seeds that have it, in whatever order they come.

A note has one timelock and one note data, and the seeds may ask for several.

* In version 0 the gate that gives birth to a note reconciles the intent of each seed with the
  timelock of the blank output, not with what the seeds before it asked for. So the crash of
  `reconcile` is out of reach, and the last intent wins (`birthSeed_timelock`). The intents are
  honoured exactly if no two seeds for one recipient conflict (`V0.Outputs.honours_iff`).
* In version 1 a note has the data of its first seed, and later seeds are added without a look at
  theirs. Every seed finds its data in the note exactly if seeds with one lock root agree
  (`V1.Tx.dataOfAll_iff`).
-/

set_option autoImplicit false

namespace Nockchain.TxEngine

open Lib ZMap Timelock ZSet List

section Collected

variable [Tip5]

/-! ### Collecting seeds -/

section Collects

variable {κ σ ω : Type} [ToNoun κ] [ToNoun σ] [DecidableEq κ] [DecidableEq σ]
  {key : σ → κ} {seeds : ω → ZSet σ} {done : List σ} {acc : ZMap κ ω}

/-- The outputs made of the seeds in `done`: each key has an output, which holds the seeds with
that key. -/
structure Collects (key : σ → κ) (seeds : ω → ZSet σ) (done : List σ) (acc : ZMap κ ω) :
    Prop where
  mem : ∀ k out, acc.get k = some out → ∀ s, s ∈ seeds out ↔ s ∈ done ∧ key s = k
  has : ∀ s ∈ done, ∃ out, acc.get (key s) = some out

/-- A seed is put into the output of its key, which is new if the key is. -/
theorem Collects.put (h : Collects key seeds done acc) {sed : σ} {out : ω}
    (hout : seeds out = (((acc.get (key sed)).map seeds).getD ∅).put sed) :
    Collects key seeds (done ++ [sed]) (acc.put (key sed) out) := by
  -- the seeds that had the key before
  have hbefore : ∀ s, s ∈ ((acc.get (key sed)).map seeds).getD ∅ ↔ s ∈ done ∧ key s = key sed := by
    intro s
    cases hget : acc.get (key sed) with
    | none =>
      refine iff_of_false (not_mem_empty s) ?_
      rintro ⟨hs, hkey⟩
      obtain ⟨out, hsome⟩ := h.has s hs
      rw [hkey, hget] at hsome
      cases hsome
    | some child => exact h.mem _ _ hget s
  constructor
  · intro k out' hget s
    rw [get_put] at hget
    split_ifs at hget with hk
    · subst hk
      cases hget
      rw [hout, mem_put, hbefore, mem_append, mem_singleton]
      constructor
      · rintro (rfl | ⟨hs, hkey⟩)
        · exact ⟨.inr rfl, rfl⟩
        · exact ⟨.inl hs, hkey⟩
      · rintro ⟨hs | rfl, hkey⟩
        · exact .inr ⟨hs, hkey⟩
        · exact .inl rfl
    rw [h.mem k out' hget s, mem_append, mem_singleton]
    constructor
    · rintro ⟨hs, hkey⟩
      exact ⟨.inl hs, hkey⟩
    · rintro ⟨hs | rfl, hkey⟩
      · exact ⟨hs, hkey⟩
      · exact absurd hkey.symm hk
  · intro s hs
    rw [get_put]
    split_ifs with hk
    · exact ⟨out, rfl⟩
    rcases mem_append.1 hs with hs | hs
    · exact h.has s hs
    · rw [mem_singleton] at hs
      exact absurd (congrArg key hs) hk

end Collects

/-! ### Timelocks of version 0 -/

namespace V0

/-- The seeds of all inputs, in the order in which they are added. -/
def Inputs.allSeeds (ips : Inputs) : List Seed := ips.val.flatMap fun inp => inp.spend.seeds.tap

/-- The outputs before they are born: they hold the seeds, and their notes are blank. -/
structure Outputs.Unborn (done : List Seed) (children : Outputs) : Prop where
  collects : Collects Seed.recipient Output.seeds done children
  blank : ∀ loc child, children.get loc = some child → child.note = default

/-- A seed joins the output of its recipient, or makes one. -/
theorem Outputs.Unborn.addSeed {done : List Seed} {children children' : Outputs} {sed : Seed}
    (h : Unborn done children) (hadd : Outputs.addSeed children sed = some children') :
    Unborn (done ++ [sed]) children' := by
  -- either way the note of the output stays blank
  obtain ⟨out, rfl, hnote, hseeds⟩ : ∃ out : Output, children' = children.put sed.recipient out ∧
      out.note = default ∧
      out.seeds = (((children.get sed.recipient).map Output.seeds).getD ∅).put sed := by
    unfold Outputs.addSeed at hadd
    cases hchild : children.get sed.recipient with
    | none =>
      rw [hchild] at hadd
      exact ⟨_, (Option.some.inj hadd).symm, rfl, rfl⟩
    | some child =>
      simp only [hchild, bind_eq_some, pure_eq_some] at hadd
      obtain ⟨-, -, rfl⟩ := hadd
      exact ⟨_, rfl, h.blank _ child hchild, rfl⟩
  refine ⟨h.collects.put hseeds, fun loc child hget => ?_⟩
  rw [get_put] at hget
  split_ifs at hget
  · exact Option.some.inj hget ▸ hnote
  · exact h.blank loc child hget

/-- What `new:outputs` does: it collects the seeds of all inputs, and the outputs are born. -/
theorem Outputs.new_spec {ips : Inputs} {n : Nat} {ops : Outputs} (h : Outputs.new ips n = some ops) :
    ∃ children, Unborn ips.allSeeds children ∧
      (∀ loc, ops.get loc = (children.get loc).bind (Output.birth n)) ∧
      ∀ loc child, children.get loc = some child → ∃ out, Output.birth n child = some out := by
  simp only [Outputs.new, bind_eq_some] at h
  obtain ⟨-, -, children, hchildren, hbirth⟩ := h
  have hrun := (Run.of_foldlM hchildren).mono fun _ _ _ hseeds => Run.of_foldlM hseeds
  have hstart : Unborn [] (∅ : Outputs) :=
    ⟨⟨fun k out hget => by simp at hget, fun s hs => absurd hs not_mem_nil⟩,
      fun loc child hget => by simp at hget⟩
  refine ⟨children, ?_, get_runM hbirth, ?_⟩
  · exact hrun.flatMap.collects Unborn (fun _ _ _ _ hstep hdone => hdone.addSeed hstep) hstart
  · exact fun loc child hget => exists_of_runM hbirth hget

/-- One seed: an intent replaces the timelock, whatever the seeds before asked for. -/
theorem Output.birthSeed_timelock {child chi out : Output} {seed : Seed}
    (hblank : child.note.timelock = none) (h : birthSeed child chi seed = some out) :
    out.note.timelock = if seed.timelockIntent = none then chi.note.timelock
      else convertFromIntent seed.timelockIntent := by
  simp only [birthSeed, Option.bind_eq_bind, Option.pure_def] at h
  cases hintent : seed.timelockIntent with
  | none =>
    rw [hintent] at h
    cases h
    rfl
  | some u =>
    rw [hintent, hblank] at h
    cases h
    rfl

/-- The seeds of an output, one after the other: the timelock is the intent of one of them, if
one has an intent. -/
theorem Output.timelock_of_birthSeeds {child chi out : Output} {seeds : List Seed}
    (hblank : child.note.timelock = none)
    (h : Run (fun chi seed out => birthSeed child chi seed = some out) chi seeds out) :
    (∀ s ∈ seeds, s.timelockIntent = none) ∧ out.note.timelock = chi.note.timelock ∨
      ∃ s ∈ seeds, s.timelockIntent ≠ none ∧
        out.note.timelock = convertFromIntent s.timelockIntent := by
  have hstart : (∀ s ∈ ([] : List Seed), s.timelockIntent = none) ∧
      chi.note.timelock = chi.note.timelock := ⟨fun s hs => absurd hs not_mem_nil, rfl⟩
  refine h.collects (fun done out =>
    (∀ s ∈ done, s.timelockIntent = none) ∧ out.note.timelock = chi.note.timelock ∨
      ∃ s ∈ done, s.timelockIntent ≠ none ∧
        out.note.timelock = convertFromIntent s.timelockIntent) ?_ (.inl hstart)
  intro done b x b' hstep hdone
  have htimelock := birthSeed_timelock hblank hstep
  split at htimelock
  case isTrue hnone =>
    rw [htimelock]
    rcases hdone with ⟨hall, heq⟩ | ⟨s, hs, hsome, heq⟩
    · refine .inl ⟨fun s hs => ?_, heq⟩
      rcases mem_append.1 hs with hs | hs
      · exact hall s hs
      · rw [mem_singleton] at hs
        exact hs ▸ hnone
    · exact .inr ⟨s, mem_append_left _ hs, hsome, heq⟩
  case isFalse hsome =>
    exact .inr ⟨x, mem_append_right _ (mem_singleton_self x), hsome, htimelock⟩

theorem Output.timelock_of_birth {n : Nat} {child out : Output} (hblank : child.note = default)
    (h : birth n child = some out) {s : Seed} (hs : s ∈ child.seeds)
    (hsome : s.timelockIntent ≠ none) : ∃ s' ∈ child.seeds, s'.timelockIntent ≠ none ∧
      out.note.timelock = convertFromIntent s'.timelockIntent := by
  simp only [birth, bind_eq_some, pure_eq_some] at h
  obtain ⟨source, -, chi, hchi, name, -, rfl⟩ := h
  have htimelock : child.note.timelock = none := by rw [hblank]; rfl
  rcases timelock_of_birthSeeds htimelock (Run.of_foldlM hchi) with ⟨hall, -⟩ | ⟨s', hs', h'⟩
  · exact absurd (hall s (mem_tap.2 hs)) hsome
  · exact ⟨s', mem_tap.1 hs', h'⟩

/-- Two seeds for one recipient that ask for different timelocks. -/
def Inputs.Conflicting (ips : Inputs) : Prop :=
  ∃ s ∈ ips.allSeeds, ∃ s' ∈ ips.allSeeds, s.recipient = s'.recipient ∧
    s.timelockIntent ≠ none ∧ s'.timelockIntent ≠ none ∧
    convertFromIntent s.timelockIntent ≠ convertFromIntent s'.timelockIntent

/-- Every seed that asks for a timelock is paid into an output with that timelock. -/
def Outputs.Honours (ops : Outputs) (ips : Inputs) : Prop :=
  ∀ s ∈ ips.allSeeds, s.timelockIntent ≠ none → ∃ out, ops.get s.recipient = some out ∧
      out.note.timelock = convertFromIntent s.timelockIntent

/-- One output cannot honour two intents. -/
theorem Outputs.Honours.not_conflicting {ops : Outputs} {ips : Inputs} (h : ops.Honours ips) :
    ¬ ips.Conflicting := by
  intro hconflict
  obtain ⟨s, hs, s', hs', hloc, hsome, hsome', hne⟩ := hconflict
  obtain ⟨out, hout, htimelock⟩ := h s hs hsome
  obtain ⟨out', hout', htimelock'⟩ := h s' hs' hsome'
  rw [← hloc, hout] at hout'
  cases hout'
  exact hne (htimelock.symm.trans htimelock')

/-- The outputs honour the intents of all seeds exactly if no two of them conflict. Seeds in
conflict do not make `new:outputs` crash. -/
theorem Outputs.honours_iff {ips : Inputs} {n : Nat} {ops : Outputs}
    (h : Outputs.new ips n = some ops) : ops.Honours ips ↔ ¬ ips.Conflicting := by
  refine ⟨Honours.not_conflicting, fun hfree s hs hsome => ?_⟩
  obtain ⟨children, hunborn, hops, hall⟩ := Outputs.new_spec h
  obtain ⟨child, hchild⟩ := hunborn.collects.has s hs
  have hmem := hunborn.collects.mem _ _ hchild
  obtain ⟨out, hbirth⟩ := hall _ _ hchild
  have hout : ops.get s.recipient = some out := by rw [hops, hchild]; exact hbirth
  obtain ⟨s', hs', hsome', htimelock⟩ :=
    Output.timelock_of_birth (hunborn.blank _ _ hchild) hbirth ((hmem s).2 ⟨hs, rfl⟩) hsome
  obtain ⟨hs', hloc⟩ := (hmem s').1 hs'
  refine ⟨out, hout, htimelock.trans ?_⟩
  by_contra hne
  exact hfree ⟨s', hs', s, hs, hloc, hsome', hsome, hne⟩

end V0

/-! ### Note data of version 1 -/

namespace V1

/-- The seeds of all spends, in the order in which they are added. -/
def RawTx.allSeeds (raw : RawTx) : List Seed := raw.spends.tap.flatMap fun x => x.2.seeds.tap

/-- Seeds with one lock root have the same data. -/
def RawTx.DataAgrees (raw : RawTx) : Prop :=
  ∀ s ∈ raw.allSeeds, ∀ s' ∈ raw.allSeeds, s.lockRoot = s'.lockRoot → s.noteData = s'.noteData

/-- The note has the data of one of the seeds. -/
def Output.DataOfSeed (out : Output) : Prop :=
  ∃ note, out.note = .v1 note ∧ ∃ s ∈ out.seeds, s.noteData = note.noteData

/-- Every seed has the data of the note. -/
def Output.DataOfAll (out : Output) : Prop :=
  ∀ s ∈ out.seeds, ∃ note, out.note = .v1 note ∧ s.noteData = note.noteData

namespace Tx

/-- The outputs so far: they hold the seeds, each with the data of one of its seeds. -/
structure Built (done : List Seed) (acc : ZMap Digest Output) : Prop where
  collects : Collects Seed.lockRoot Output.seeds done acc
  data : ∀ root out, acc.get root = some out → out.DataOfSeed

/-- A seed either makes a note with its data or adds its gift to one, whose data stays. -/
theorem Built.addSeed {n : Nat} {done : List Seed} {acc acc' : ZMap Digest Output} {sed : Seed}
    (h : Built done acc) (hadd : Tx.addSeed n acc sed = some acc') : Built (done ++ [sed]) acc' := by
  obtain ⟨out, rfl, hdata, hseeds⟩ : ∃ out : Output, acc' = acc.put sed.lockRoot out ∧
      out.DataOfSeed ∧
      out.seeds = (((acc.get sed.lockRoot).map Output.seeds).getD ∅).put sed := by
    unfold Tx.addSeed at hadd
    cases hchild : acc.get sed.lockRoot with
    | none =>
      simp only [hchild, bind_eq_some, pure_eq_some] at hadd
      obtain ⟨sh, -, name, -, rfl⟩ := hadd
      exact ⟨_, rfl, ⟨_, rfl, sed, mem_put.2 (.inl rfl), rfl⟩, rfl⟩
    | some child =>
      simp only [hchild, bind_eq_some] at hadd
      obtain ⟨srcHash, -, hadd⟩ := hadd
      -- the seed is added, the data stays that of an earlier one
      obtain ⟨note, hnote, s, hs, hdata⟩ := h.data _ _ hchild
      simp only [hnote, bind_eq_some, pure_eq_some] at hadd
      obtain ⟨name, -, rfl⟩ := hadd
      exact ⟨_, rfl, ⟨_, rfl, s, mem_put.2 (.inr hs), hdata⟩, rfl⟩
  refine ⟨h.collects.put hseeds, fun root child hget => ?_⟩
  rw [get_put] at hget
  split_ifs at hget
  · exact Option.some.inj hget ▸ hdata
  · exact h.data root child hget

/-- What `build-outputs:new:tx` returns: for each lock root among the seeds an output that holds
the seeds with that root and has the data of one of them. -/
theorem built_of_buildOutputs {raw : RawTx} {n : Nat} {outs : Outputs}
    (h : buildOutputs raw n = some outs) :
    ∃ acc, Built raw.allSeeds acc ∧ ∀ out, out ∈ outs ↔ ∃ root, acc.get root = some out := by
  simp only [buildOutputs, bind_eq_some, pure_eq_some] at h
  obtain ⟨children, hchildren, rfl⟩ := h
  have hrun := (Run.of_foldlM hchildren).mono fun _ _ _ hseeds => Run.of_foldlM hseeds
  have hstart : Built [] (∅ : ZMap Digest Output) :=
    ⟨⟨fun k out hget => by simp at hget, fun s hs => absurd hs not_mem_nil⟩,
      fun root out hget => by simp at hget⟩
  refine ⟨children, ?_, fun out => ?_⟩
  · exact hrun.flatMap.collects Built (fun _ _ _ _ hstep hdone => hdone.addSeed hstep) hstart
  · rw [mem_gas, mem_val]
    exact ⟨fun h => h.resolve_right (not_mem_empty out), .inl⟩

/-- An output whose seeds all have the data of its note has seeds that agree. -/
theorem agree_of_dataOfAll {raw : RawTx} {n : Nat} {outs : Outputs}
    (h : buildOutputs raw n = some outs) (hall : ∀ out ∈ outs, out.DataOfAll) : raw.DataAgrees := by
  intro s hs s' hs' hroot
  obtain ⟨acc, hbuilt, houts⟩ := built_of_buildOutputs h
  obtain ⟨out, hget⟩ := hbuilt.collects.has s hs
  have hmem := hbuilt.collects.mem _ _ hget
  have hdata := hall out ((houts out).2 ⟨_, hget⟩)
  obtain ⟨note, hnote, heq⟩ := hdata s ((hmem s).2 ⟨hs, rfl⟩)
  obtain ⟨note', hnote', heq'⟩ := hdata s' ((hmem s').2 ⟨hs', hroot.symm⟩)
  rw [hnote] at hnote'
  cases hnote'
  exact heq.trans heq'.symm

/-- Every seed has the data of the note it is paid into exactly if seeds with one lock root have
the same data. Nothing makes a transaction fail whose seeds disagree. -/
theorem dataOfAll_iff {raw : RawTx} {n : Nat} {outs : Outputs} (h : buildOutputs raw n = some outs) :
    (∀ out ∈ outs, out.DataOfAll) ↔ raw.DataAgrees := by
  refine ⟨agree_of_dataOfAll h, fun hagree out hout s hs => ?_⟩
  obtain ⟨acc, hbuilt, houts⟩ := built_of_buildOutputs h
  obtain ⟨root, hget⟩ := (houts out).1 hout
  have hmem := hbuilt.collects.mem _ _ hget
  obtain ⟨note, hnote, s', hs', heq⟩ := hbuilt.data _ _ hget
  obtain ⟨hs, hroot⟩ := (hmem s).1 hs
  obtain ⟨hs', hroot'⟩ := (hmem s').1 hs'
  exact ⟨note, hnote, (hagree s hs s' hs' (hroot.trans hroot'.symm)).trans heq⟩

end Tx

end V1

end Collected

/-! ### Seeds that disagree -/

section Disagree

local instance disagreeTip5 : Tip5 := mixTip5

local instance disagreeCheetah : Cheetah := ⟨fun _ _ _ _ => true⟩

/-- A seed of version 0 for one recipient that asks for a lock up to page `max`. -/
def lockedSeed (max gift : Nat) : V0.Seed :=
  ⟨none, default, some ⟨⟨none, some max⟩, .unbounded⟩, gift, default⟩

/-- One input that pays the recipient with these seeds. -/
def lockedInputs (seeds : List V0.Seed) : V0.Inputs :=
  put ∅ default ⟨default, ⟨none, gas ∅ seeds, 1⟩⟩

/-- Two seeds that ask for different locks, in one transaction: the outputs are made. -/
theorem not_honours_locked : ∃ ops,
    V0.Outputs.new (lockedInputs [lockedSeed 3 1, lockedSeed 4 1]) 9 = some ops ∧
      ¬ ops.Honours (lockedInputs [lockedSeed 3 1, lockedSeed 4 1]) := by
  obtain ⟨ops, hops, -⟩ := exists_some_of_any (fun _ => True) (by decide +kernel :
      (V0.Outputs.new (lockedInputs [lockedSeed 3 1, lockedSeed 4 1]) 9).any _ = true)
  have hfst : lockedSeed 3 1 ∈ (lockedInputs [lockedSeed 3 1, lockedSeed 4 1]).allSeeds := by
    decide +kernel
  have hsnd : lockedSeed 4 1 ∈ (lockedInputs [lockedSeed 3 1, lockedSeed 4 1]).allSeeds := by
    decide +kernel
  exact ⟨ops, hops, fun h =>
    h.not_conflicting ⟨_, hfst, _, hsnd, rfl, by decide, by decide, by decide⟩⟩

/-- The same lock twice. -/
theorem honours_iff_locked : ∃ ops,
    V0.Outputs.new (lockedInputs [lockedSeed 3 1, lockedSeed 3 2]) 9 = some ops ∧
      (ops.Honours (lockedInputs [lockedSeed 3 1, lockedSeed 3 2]) ↔
        ¬ (lockedInputs [lockedSeed 3 1, lockedSeed 3 2]).Conflicting) := by
  obtain ⟨ops, hops, -⟩ := exists_some_of_any (fun _ => True) (by decide +kernel :
      (V0.Outputs.new (lockedInputs [lockedSeed 3 1, lockedSeed 3 2]) 9).any _ = true)
  exact ⟨ops, hops, V0.Outputs.honours_iff hops⟩

/-- A transaction of version 1 that pays one lock root with a seed for each data and gift. -/
def dataRaw (datas : List (V1.NoteData × Nat)) : V1.RawTx :=
  let raw : V1.RawTx := ⟨.ofNat 0, put ∅ ⟨.ofNat 0, .ofNat 0⟩ (.s1 {
    witness := ⟨⟨[], 1, ⟨.ofNat 2, []⟩⟩, ∅, ∅⟩
    seeds := gas ∅ (datas.map fun x => ⟨none, .ofNat 2, x.1, x.2, .ofNat 0⟩)
    fee := 1 })⟩
  { raw with id := raw.computeId.getD (.ofNat 0) }

/-- No data and some data: the transaction is valid, and the data of one seed is gone. -/
theorem not_dataOfAll_two : ∃ tx,
    V1.Tx.new (dataRaw [(∅, 1), (ZMap.put ∅ 1 (.atom 1), 1)]) 9 = some tx ∧ tx.validate = some true ∧
      ¬ ∀ out ∈ tx.outputs, out.DataOfAll := by
  obtain ⟨tx, htx, hvalid⟩ := exists_some_of_any (fun tx : V1.Tx => tx.validate = some true)
    (by decide +kernel : (V1.Tx.new (dataRaw [(∅, 1), (put ∅ 1 (.atom 1), 1)]) 9).any _ = true)
  refine ⟨tx, htx, hvalid, fun hall => ?_⟩
  simp only [V1.Tx.new, bind_eq_some, pure_eq_some] at htx
  obtain ⟨outs, houts, size, -, rfl⟩ := htx
  have hagree := V1.Tx.agree_of_dataOfAll houts hall
  have hfst : ⟨none, .ofNat 2, ∅, 1, .ofNat 0⟩ ∈
      (dataRaw [(∅, 1), (put ∅ 1 (.atom 1), 1)]).allSeeds := by decide +kernel
  have hsnd : ⟨none, .ofNat 2, put ∅ 1 (.atom 1), 1, .ofNat 0⟩ ∈
      (dataRaw [(∅, 1), (put ∅ 1 (.atom 1), 1)]).allSeeds := by decide +kernel
  exact absurd (hagree _ hfst _ hsnd rfl) (by decide +kernel)

/-- The same data twice: both seeds find it in their note. -/
theorem dataOfAll_iff_same : ∃ outs,
    V1.Tx.buildOutputs (dataRaw [(put ∅ 1 (.atom 1), 1), (put ∅ 1 (.atom 1), 2)]) 9 = some outs ∧
      outs.tap.map (fun out => out.seeds.tap.length) = [2] ∧ ∀ out ∈ outs, out.DataOfAll := by
  obtain ⟨outs, houts, htwo⟩ := exists_some_of_any
    (fun outs : V1.Outputs => outs.tap.map (fun out => out.seeds.tap.length) = [2])
    (by decide +kernel : (V1.Tx.buildOutputs
      (dataRaw [(put ∅ 1 (.atom 1), 1), (put ∅ 1 (.atom 1), 2)]) 9).any _ = true)
  have hsame : ∀ s ∈ (dataRaw [(put ∅ 1 (.atom 1), 1), (put ∅ 1 (.atom 1), 2)]).allSeeds,
      s.noteData = put ∅ 1 (.atom 1) := by decide +kernel
  refine ⟨outs, houts, htwo, (V1.Tx.dataOfAll_iff houts).2 fun s hs s' hs' _ => ?_⟩
  rw [hsame s hs, hsame s' hs']

end Disagree

end Nockchain.TxEngine
