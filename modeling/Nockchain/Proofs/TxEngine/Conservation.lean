import Nockchain.Proofs.TxEngine.Accepted

/-!
# `Nockchain.Proofs.TxEngine.Conservation`: a transaction neither mints nor burns

The outputs of a transaction are its seeds, grouped by recipient in version 0
and by lock root in version 1. Both builders keep the sum of the gifts: version
0 crashes on a seed that its group has already, and version 1 adds the gift of
every seed to the assets of its group even where the set absorbs it. The gifts
and the fee of a spend are the assets of the note it consumes, so an accumulator
is worth after `process:tx-acc` what it was worth before (`worth_process`).
-/

set_option autoImplicit false

namespace Nockchain.TxEngine

open Lib Reason ZMap Balance List

variable [Tip5]

/-! ### Outputs of version 0 -/

variable {n : Nat}

namespace V0

/-- What a set of seeds gives away. -/
def Seeds.gifts (s : Seeds) : Nat := ZSet.total Seed.gift s

namespace Outputs
/-- What the seeds of all outputs give away. -/
def gifts (ops : Outputs) : Nat := total (fun op => op.seeds.gifts) ops

/-- A seed adds its gift to the output of its recipient. -/
theorem gifts_addSeed {children children' : Outputs} {sed : Seed}
    (h : addSeed children sed = some children') : gifts children' = gifts children + sed.gift := by
  unfold addSeed at h
  cases hchild : children.get sed.recipient with
  | none =>
    rw [hchild] at h
    cases h
    have hput := total_put (fun op : Output => op.seeds.gifts)
      { (default : Output) with seeds := ZSet.put ∅ sed } hchild
    have hone : Seeds.gifts (ZSet.put ∅ sed) = sed.gift := by
      rw [Seeds.gifts, ZSet.total_put _ (ZSet.not_mem_empty sed), ZSet.total_empty, Nat.zero_add]
    exact hput.trans (congrArg _ hone)
  | some child =>
    simp only [hchild, bind_eq_some, Option.guard_eq_some', pure_eq_some, Bool.not_eq_true',
      ZSet.has_eq_false] at h
    obtain ⟨-, hfresh, rfl⟩ := h
    have hput := total_put_of_get (fun op : Output => op.seeds.gifts)
      { child with seeds := child.seeds.put sed } hchild
    have hseeds : Seeds.gifts (child.seeds.put sed) = Seeds.gifts child.seeds + sed.gift :=
      ZSet.total_put Seed.gift hfresh
    dsimp only at hput
    unfold gifts
    omega
/-- All seeds of a list of inputs, entered one after the other. -/
theorem gifts_addSeeds {children children' : Outputs} {ips : List Input}
    (h : ips.foldlM (fun children inp => inp.spend.seeds.tap.foldlM addSeed children) children
      = some children') :
    gifts children' = gifts children + (ips.map fun inp => inp.spend.seeds.gifts).sum := by
  refine (Run.of_foldlM h).gains gifts (fun inp => inp.spend.seeds.gifts) ?_
  intro c inp c' _ hseeds
  exact (Run.of_foldlM hseeds).gains gifts Seed.gift fun _ _ _ _ hstep => gifts_addSeed hstep

theorem Output.frame_birthSeed {child chi out : Output} {seed : Seed}
    (h : Output.birthSeed child chi seed = some out) :
    out.seeds = chi.seeds ∧ out.note.source = chi.note.source := by
  simp only [Output.birthSeed, Option.bind_eq_bind, Option.pure_def] at h
  split at h <;> obtain ⟨timelock, -, hout⟩ := bind_eq_some.1 h <;> cases hout <;> exact ⟨rfl, rfl⟩

theorem Output.birth_seeds {child out : Output} (h : Output.birth n child = some out) :
    out.seeds = child.seeds := by
  simp only [Output.birth, bind_eq_some, pure_eq_some] at h
  obtain ⟨source, -, chi, hchi, name, -, rfl⟩ := h
  refine (Run.of_foldlM hchi).invariant (fun chi => chi.seeds = child.seeds) ?_ rfl
  intro a seed b _ hseed ha
  exact (Output.frame_birthSeed hseed).1.trans ha

/-- The outputs of a transaction give what its inputs give. -/
theorem gifts_new {ips : Inputs} {ops : Outputs} (h : new ips n = some ops) :
    gifts ops = total (fun inp => inp.spend.seeds.gifts) ips := by
  simp only [new, bind_eq_some] at h
  obtain ⟨-, -, children, hchildren, hbirth⟩ := h
  have hgifts := gifts_addSeeds hchildren
  have hborn : gifts ops = gifts children :=
    total_runM (fun v w hvw => by rw [Output.birth_seeds hvw]) hbirth
  rw [hborn, hgifts]
  exact Nat.zero_add _

theorem assets_of_validate {ops : Outputs} (h : ops.validate) :
    ∀ out ∈ ops.val, out.note.assets = out.seeds.gifts := by
  intro out hout
  obtain ⟨loc, hget⟩ := mem_val.1 hout
  rw [validate, all_eq_true] at h
  have hval := h (loc, out) (mem_tap.2 hget)
  simp only [Output.validate, Bool.and_eq_true, decide_eq_true_eq] at hval
  rw [← hval.1.2, foldl_add_eq_sum', Nat.zero_add]
  rfl

end Outputs

theorem Input.Valid.assets_eq {name : Nname} {inp : Input} (h : Input.Valid name inp) :
    inp.note.assets = inp.spend.fee + inp.spend.seeds.gifts := by
  rw [← h.assets, Input.giftsAndFee, foldl_add_eq_sum, Nat.zero_add]
  rfl

end V0

variable {form form' : TxAcc}

/-- A version 0 transaction keeps what the accumulator is worth. -/
theorem TxAcc.AcceptedV0.worth_eq [Cheetah] {raw : V0.RawTx} {ops : V0.Outputs}
    {mid done : TxAcc} (h : AcceptedV0 form raw ops mid done form') : form'.worth = form.worth := by
  obtain ⟨tir, hconsumed⟩ := h.consumed
  have hadded := Adds.total_run h.added
  have hfees : mid.fees = form.fees := by rw [Adds.frame_run h.added]
  have hworth := hconsumed.measure (fun acc => acc.2.worth) (fun ip => ip.note.assets)
    (fun ip => ip.spend.fee) fun _ _ _ _ hstep => worth_consumeInputV0 hstep
  -- The entered notes hold the gifts of the inputs.
  have houts : ((ops.val.map fun op => V1.Nnote.v0 op.note).map V1.Nnote.assets).sum
      = (raw.inputs.val.map fun inp => inp.spend.seeds.gifts).sum := by
    rw [map_map]
    exact (congrArg sum (map_congr_left (V0.Outputs.assets_of_validate h.outputs))).trans
        (V0.Outputs.gifts_new h.new)
  -- The consumed notes hold the gifts and the fees.
  have hins : (raw.inputs.val.map fun ip => ip.note.assets).sum
      = (raw.inputs.val.map fun ip => ip.spend.fee).sum
        + (raw.inputs.val.map fun ip => ip.spend.seeds.gifts).sum := by
    rw [← sum_map_add]
    refine congrArg sum (map_congr_left fun inp hinp => ?_)
    obtain ⟨name, hget⟩ := mem_val.1 hinp
    have hvalid := (V0.Inputs.valid_of_validate (V0.RawTx.validate_eq_true h.valid).1).2
    exact (hvalid name inp hget).assets_eq
  have hform : form'.worth = done.worth := by
    rw [worth, worth, h.balance_eq, h.fees_eq]
  have hmid : mid.worth = total mid.balance + mid.fees := rfl
  have hstart : form.worth = total form.balance + form.fees := rfl
  dsimp only at hworth
  omega

/-! ### Outputs of version 1 -/

namespace V1

/-- What a set of seeds gives away. -/
def Seeds.gifts (s : Seeds) : Nat := ZSet.total Seed.gift s

theorem Spend.giftsAndFee_eq (sp : Spend) : sp.giftsAndFee = sp.fee + sp.seeds.gifts := by
  rw [giftsAndFee, foldl_add_eq_sum, Nat.zero_add]
  rfl

namespace Tx

/-- An output as `build-outputs:new:tx` makes it for a lock root: it has seeds, all of them for
that root, and a version 1 note that is named after the root and a source that is no coinbase. -/
structure Child (root : Digest) (out : Output) : Prop where
  nonempty : ∃ sed, sed ∈ out.seeds
  lockRoot : ∀ sed ∈ out.seeds, sed.lockRoot = root
  note : ∃ note src, out.note = .v1 note ∧ newNname root ⟨src, false⟩ = some note.name

/-- What one seed does: it replaces the output of its lock root, or makes it. -/
theorem addSeed_spec {acc acc' : ZMap Digest Output} {sed : Seed}
    (h : addSeed n acc sed = some acc')
    (hacc : ∀ root out, acc.get root = some out → Child root out) :
    ∃ out, acc' = acc.put sed.lockRoot out ∧ Child sed.lockRoot out ∧ out.note.assets
        = ((acc.get sed.lockRoot).map fun child => child.note.assets).getD 0 + sed.gift := by
  unfold addSeed at h
  cases hchild : acc.get sed.lockRoot with
  | none =>
    simp only [hchild, bind_eq_some, pure_eq_some] at h
    obtain ⟨sh, -, name, hname, rfl⟩ := h
    refine ⟨_, rfl, ⟨⟨sed, by simp⟩, by simp, _, sh, rfl, hname⟩, ?_⟩
    exact (Nat.zero_add _).symm
  | some child =>
    simp only [hchild, bind_eq_some] at h
    obtain ⟨srcHash, -, h⟩ := h
    have hc := hacc _ _ hchild
    cases hnote : child.note with
    | v0 note => simp [hnote] at h
    | v1 note =>
      simp only [hnote, bind_eq_some, pure_eq_some] at h
      obtain ⟨name, hname, rfl⟩ := h
      refine ⟨_, rfl, ⟨⟨sed, by simp⟩, ?_, _, srcHash, rfl, hname⟩, ?_⟩
      · intro s hs
        rcases ZSet.mem_put.1 hs with rfl | hs
        · rfl
        · exact hc.lockRoot s hs
      · simp [hnote, Nnote.assets]

/-- The assets of the outputs built so far. -/
def assets (acc : ZMap Digest Output) : Nat := total (fun out => out.note.assets) acc

/-- A seed adds its gift to the note of its lock root. -/
theorem assets_addSeed {acc acc' : ZMap Digest Output} {sed : Seed}
    (h : addSeed n acc sed = some acc')
    (hacc : ∀ root out, acc.get root = some out → Child root out) :
    assets acc' = assets acc + sed.gift ∧
      ∀ root out, acc'.get root = some out → Child root out := by
  obtain ⟨out, rfl, hout, hassets⟩ := addSeed_spec h hacc
  constructor
  · cases hchild : acc.get sed.lockRoot with
    | none =>
      have hput := total_put (fun out : Output => out.note.assets) out hchild
      rw [hchild] at hassets
      simp only [Option.map_none, Option.getD_none, Nat.zero_add] at hassets
      exact hput.trans (congrArg _ hassets)
    | some child =>
      have hput := total_put_of_get (fun out : Output => out.note.assets) out hchild
      rw [hchild] at hassets
      simp only [Option.map_some, Option.getD_some] at hassets
      unfold assets
      omega
  · intro root out' hget
    rw [get_put] at hget
    split at hget
    · rename_i hroot
      cases hget
      exact hroot ▸ hout
    · exact hacc root out' hget

/-- The outputs of a transaction are made for lock roots, and hold the gifts of its spends. -/
theorem buildOutputs_spec {raw : RawTx} {outs : Outputs} (h : buildOutputs raw n = some outs) :
    (outs.tap.map fun out => out.note.assets).sum
        = (raw.spends.val.map fun sp => sp.seeds.gifts).sum ∧
      ∀ out ∈ outs, ∃ root, Child root out := by
  simp only [buildOutputs, bind_eq_some, pure_eq_some] at h
  obtain ⟨children, hchildren, rfl⟩ := h
  have hrun := (Run.of_foldlM hchildren).gains_of_invariant
    (fun acc => ∀ root out, acc.get root = some out → Child root out) assets
    (fun x => x.2.seeds.gifts)
    (fun acc x acc' _ hseeds hacc => (Run.of_foldlM hseeds).gains_of_invariant _ assets Seed.gift
      (fun _ _ _ _ hstep hb => assets_addSeed hstep hb) hacc)
    (by simp)
  obtain ⟨hassets, hchild⟩ := hrun
  constructor
  · -- Outputs of different lock roots have different seeds, so the set keeps every one.
    have hnodup : children.val.Nodup := by
      rw [val_eq]
      refine List.Nodup.map_on ?_ children.nodup_tap
      rintro ⟨root, out⟩ hx ⟨root', out'⟩ hy (rfl : out = out')
      have hc := hchild root out (mem_tap.1 hx)
      have hc' := hchild root' out (mem_tap.1 hy)
      obtain ⟨sed, hsed⟩ := hc.nonempty
      rw [← hc.lockRoot sed hsed, ← hc'.lockRoot sed hsed]
    have hgas := ZSet.total_gas (fun out : Output => out.note.assets) hnodup
    have hspends : (raw.spends.tap.map fun x => x.2.seeds.gifts).sum
        = (raw.spends.val.map fun sp => sp.seeds.gifts).sum := by
      rw [val_eq, map_map]
      rfl
    calc _ = (children.val.map fun out => out.note.assets).sum := hgas
      _ = assets ∅ + _ := hassets
      _ = _ := by rw [hspends]; exact Nat.zero_add _
  · intro out hout
    rw [ZSet.mem_gas] at hout
    rcases hout with hout | hout
    · obtain ⟨root, hget⟩ := mem_val.1 hout
      exact ⟨root, hchild root out hget⟩
    · exact absurd hout (ZSet.not_mem_empty out)

end Tx

end V1

/-- A version 1 transaction keeps what the accumulator is worth. -/
theorem TxAcc.AcceptedV1.worth_eq [Cheetah] {raw : V1.RawTx} {outs : V1.Outputs}
    {mid done : TxAcc} (h : AcceptedV1 form raw outs mid done form') :
    form'.worth = form.worth := by
  have hadded := Adds.total_run h.added
  have hconsumed := total_consumeInputsV1 raw.spends.key.nodup_tap h.consumed
  have houts : ((outs.tap.map V1.Output.note).map V1.Nnote.assets).sum
      = (raw.spends.val.map fun sp => sp.seeds.gifts).sum := by
    rw [map_map]
    exact (V1.Tx.buildOutputs_spec h.new).1
  -- Entering the outputs leaves the notes that the spends were checked against.
  have hat : ∀ x ∈ raw.spends.tap,
      assetsAt mid.balance x.1 = x.2.fee + x.2.seeds.gifts := by
    intro x hx
    obtain ⟨note, hget, hassets⟩ := (h.spends x.1 x.2 (mem_tap.1 hx)).note
    rw [assetsAt, Adds.get_of_run h.added hget, ← V1.Spend.giftsAndFee_eq, hassets]
    rfl
  have hins : (raw.spends.key.tap.map (assetsAt mid.balance)).sum
      = raw.spends.rollFees + (raw.spends.val.map fun sp => sp.seeds.gifts).sum := by
    have hfees : raw.spends.rollFees = (raw.spends.tap.map fun x => x.2.fee).sum := by
      rw [V1.Spends.rollFees, foldl_add_eq_sum, Nat.zero_add, val_eq, map_map]
      rfl
    rw [hfees, val_eq, map_map, tap_key, map_map]
    exact (congrArg sum (map_congr_left hat)).trans sum_map_add
  have hfees : form'.fees = form.fees + raw.spends.rollFees := by
    rw [h.fees_eq, frame_consumeInputsV1 h.consumed, Adds.frame_run h.added]
  have hform' : form'.worth = total done.balance + form'.fees := by
    rw [worth, h.balance_eq]
  have hform : form.worth = total form.balance + form.fees := rfl
  omega

/-! ### Either version -/

/-- What `process:tx-acc` returns is worth what it was given. -/
theorem TxAcc.worth_process [Cheetah] {bc : BlockchainConstants}
    {raw : RawTx} (h : process bc form raw = .ok form') : form'.worth = form.worth := by
  cases accepted_of_process h with
  | v0 _ hacc | v1 _ hacc => exact hacc.worth_eq

end Nockchain.TxEngine
