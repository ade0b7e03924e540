import Nockchain.TxEngine.Page

/-!
# `Nockchain.Proofs.TxEngine.Accepted`: what an accepted transaction has passed

One inversion lemma for each function between `process:tx-acc` and the checks of
a single input or spend. `AcceptedV0` and `AcceptedV1` collect what a transaction
of each version has passed when `process:tx-acc` returns `%.y`, and how the
accumulator that it returns comes about: outputs entered first, inputs taken out
after.
-/

set_option autoImplicit false

namespace Nockchain.TxEngine

open Lib Reason

/-!
## What a balance is worth

The abstract view of a balance is a finite map from names to notes, worth the
sum of their assets. A transaction of either version enters notes under fresh
names (`Adds`) and takes notes out (`consumeInputV0`, `consumeInputV1`), so the
worth of the balance changes by what the entered notes and the notes taken out
are worth.
-/

section

variable [Tip5]

variable {nam : Nname} {f f' : TxAcc}

namespace Balance

/-- The assets of all notes of a balance. -/
def total (b : Balance) : Nat := ZMap.total V1.Nnote.assets b

/-- The assets under a name, none where there is no note. -/
def assetsAt (b : Balance) (nam : Nname) : Nat := ((b.get nam).map V1.Nnote.assets).getD 0

theorem assetsAt_del {b : Balance} {nam' : Nname} (h : nam' ≠ nam) :
    assetsAt (b.del nam) nam' = assetsAt b nam' := by
  rw [assetsAt, ZMap.get_del, if_neg h, assetsAt]

end Balance

namespace TxAcc

/-! ### Entering notes -/

/-- `f'` is `f` with a note entered under its name, which is fresh. -/
def Adds (f : TxAcc) (note : Nnote) (f' : TxAcc) : Prop :=
  f.balance.get note.name = none ∧ f' = { f with balance := f.balance.put note.name note }

theorem adds_of_addOutputV0 {op : V0.Output} (h : Ok (addOutputV0 f op) f') :
    Adds f (.v0 op.note) f' := by
  simp only [addOutputV0, ok_bind, ok_require, ok_pure, Bool.not_eq_true',
    ZMap.has_eq_false] at h
  obtain ⟨-, hfresh, rfl⟩ := h
  exact ⟨hfresh, rfl⟩

theorem adds_of_addOutputV1 {op : V1.Output} (h : Ok (addOutputV1 f op) f') :
    Adds f op.note f' := by
  unfold addOutputV1 at h
  cases hnote : op.note with
  | v0 note => simp [hnote] at h
  | v1 note =>
    simp only [hnote, ok_bind, ok_require, ok_pure, Bool.not_eq_true', ZMap.has_eq_false] at h
    obtain ⟨-, hfresh, rfl⟩ := h
    exact ⟨hfresh, rfl⟩

variable {note : Nnote}

namespace Adds

variable {notes : List Nnote}

section

variable (h : Run Adds f notes f')

include h

/-- Entering notes adds their assets. -/
theorem total_run :
    Balance.total f'.balance = Balance.total f.balance + (notes.map V1.Nnote.assets).sum := by
  refine h.gains (fun f => Balance.total f.balance) V1.Nnote.assets ?_
  rintro f note f' - ⟨hfresh, rfl⟩
  exact ZMap.total_put V1.Nnote.assets note hfresh

/-- Entering notes changes nothing but the balance. -/
theorem frame_run : f' = { f with balance := f'.balance } := by
  refine h.invariant (fun f' => f' = { f with balance := f'.balance }) ?_ rfl
  rintro b note b' - ⟨-, rfl⟩ hb
  rw [hb]

/-- Entering notes keeps the notes that are there. -/
theorem get_of_run (hget : f.balance.get nam = some note) : f'.balance.get nam = some note := by
  refine h.invariant (fun f' => f'.balance.get nam = some note) ?_ hget
  rintro b new b' - ⟨hfresh, rfl⟩ hb
  have hne : nam ≠ new.name := by
    rintro rfl
    rw [hfresh] at hb
    cases hb
  simpa [hne] using hb

/-- A note that is there afterwards was there before, or was entered under its name. -/
theorem get_run (hget : f'.balance.get nam = some note) :
    f.balance.get nam = some note ∨ note ∈ notes ∧ nam = note.name := by
  revert hget
  refine h.invariant (fun f' => f'.balance.get nam = some note →
    f.balance.get nam = some note ∨ note ∈ notes ∧ nam = note.name) ?_ .inl
  rintro b new b' hnew ⟨-, rfl⟩ hb hget
  rw [ZMap.get_put] at hget
  split at hget
  · rename_i hnam
    cases hget
    exact .inr ⟨hnew, hnam⟩
  · exact hb hget

end

end Adds

/-! ### Taking notes out -/

/-- What an accumulator is worth: its balance, and the fees it has collected from it. -/
def worth (f : TxAcc) : Nat := Balance.total f.balance + f.fees

variable {ip : V0.Input}

theorem ok_consumeInputV0 {tir tir' : TimelockRange}
    (h : Ok (consumeInputV0 (tir, f) ip) (tir', f')) :
    f.balance.get ip.note.name = some (.v0 ip.note) ∧
      f' = { f with balance := f.balance.del ip.note.name, fees := f.fees + ip.spend.fee } := by
  simp only [consumeInputV0, ok_bind, ok_require, decide_eq_true_eq, ok_pure,
    Prod.mk.injEq] at h
  obtain ⟨-, hget, -, rfl⟩ := h
  exact ⟨hget, rfl⟩

theorem ok_consumeInputV1 (h : Ok (consumeInputV1 f nam) f') :
    (∃ note, f.balance.get nam = some note) ∧ f' = { f with balance := f.balance.del nam } := by
  simp only [consumeInputV1, ok_bind, ok_require, ok_pure, ZMap.has_eq_true] at h
  obtain ⟨-, hget, rfl⟩ := h
  exact ⟨hget, rfl⟩

variable {acc acc' : TimelockRange × TxAcc}

/-- An input takes the assets of its note out, and pays its fee. -/
theorem worth_consumeInputV0 (h : Ok (consumeInputV0 acc ip) acc') :
    worth acc'.2 + ip.note.assets = worth acc.2 + ip.spend.fee := by
  obtain ⟨hget, hf⟩ := ok_consumeInputV0 h
  have htotal : Balance.total (acc.2.balance.del ip.note.name) + ip.note.assets
      = Balance.total acc.2.balance := ZMap.total_del V1.Nnote.assets hget
  rw [hf]
  unfold worth
  dsimp only
  omega

/-- Taking notes out by distinct names takes the assets under them. -/
theorem total_consumeInputsV1 {names : List Nname} (hnodup : names.Nodup)
    (h : Run (fun f nam f' => Ok (consumeInputV1 f nam) f') f names f') :
    Balance.total f'.balance + (names.map (Balance.assetsAt f.balance)).sum
      = Balance.total f.balance := by
  induction h with
  | nil f => rfl
  | @cons f g f' nam names hstep _ ih =>
    obtain ⟨⟨note, hget⟩, rfl⟩ := ok_consumeInputV1 hstep
    rw [List.nodup_cons] at hnodup
    -- Deleting the first name leaves the assets under the others as they were.
    have hrest : names.map (Balance.assetsAt (f.balance.del nam))
        = names.map (Balance.assetsAt f.balance) :=
      List.map_congr_left fun nam' hmem =>
        Balance.assetsAt_del fun heq => hnodup.1 (heq ▸ hmem)
    have hdel : Balance.total (f.balance.del nam) + note.assets = Balance.total f.balance :=
      ZMap.total_del V1.Nnote.assets hget
    have hat : Balance.assetsAt f.balance nam = note.assets := by
      rw [Balance.assetsAt, hget]
      rfl
    have ih := ih hnodup.2
    dsimp only at ih
    rw [hrest] at ih
    rw [List.map_cons, List.sum_cons]
    omega

theorem frame_consumeInputsV1 {names : List Nname}
    (h : Run (fun f nam f' => Ok (consumeInputV1 f nam) f') f names f') :
    f' = { f with balance := f'.balance } := by
  refine h.invariant (fun f' => f' = { f with balance := f'.balance }) ?_ rfl
  intro b nam b' _ hstep hb
  obtain ⟨-, rfl⟩ := ok_consumeInputV1 hstep
  rw [hb]

/-- `Removes b nam b'`: `b'` is `b` without the note that it has under a name. -/
def Removes (b : Balance) (nam : Nname) (b' : Balance) : Prop :=
  (∃ note, b.get nam = some note) ∧ b' = b.del nam

namespace Removes

variable {b b' : Balance} {names : List Nname}

/-- What is left after taking notes out. -/
theorem get_run (h : Run Removes b names b') (nam : Nname) :
    b'.get nam = if nam ∈ names then none else b.get nam := by
  induction h with
  | nil b => simp
  | @cons b c b' first names hstep _ ih =>
    rw [ih, hstep.2]
    by_cases hfirst : nam = first <;> simp [hfirst]

theorem get_of_run (h : Run Removes b names b')
    (hget : b'.get nam = some note) : b.get nam = some note := by
  rw [get_run h] at hget
  split at hget
  · cases hget
  · exact hget

end Removes

theorem removes_of_consumeInputsV0 {ips : List V0.Input}
    (h : Run (fun acc ip acc' => Ok (consumeInputV0 acc ip) acc') acc ips acc') :
    Run Removes acc.2.balance (ips.map fun ip => ip.note.name) acc'.2.balance := by
  refine h.map (fun acc => acc.2.balance) _ fun b ip b' hstep => ?_
  obtain ⟨hget, hf⟩ := ok_consumeInputV0 hstep
  exact ⟨⟨_, hget⟩, by rw [hf]⟩

theorem removes_of_consumeInputsV1 {names : List Nname}
    (h : Run (fun f nam f' => Ok (consumeInputV1 f nam) f') f names f') :
    Run Removes f.balance names f'.balance := by
  rw [← List.map_id names]
  refine h.map TxAcc.balance id fun b nam b' hstep => ?_
  obtain ⟨hget, hf⟩ := ok_consumeInputV1 hstep
  exact ⟨hget, by rw [hf]; rfl⟩

/-- Every input finds the note it carries under its name, before any is taken out. -/
theorem get_of_mem_consumeInputsV0 {ips : List V0.Input}
    (h : Run (fun acc ip acc' => Ok (consumeInputV0 acc ip) acc') acc ips acc')
    (hip : ip ∈ ips) : acc.2.balance.get ip.note.name = some (.v0 ip.note) := by
  induction h with
  | nil acc => cases hip
  | @cons acc mid acc' first ips hstep _ ih =>
    rcases List.mem_cons.1 hip with rfl | hip
    · exact (ok_consumeInputV0 hstep).1
    · exact Removes.get_of_run (removes_of_consumeInputsV0 (.cons hstep (.nil mid))) (ih hip)

end TxAcc

end

variable [Tip5] [Cheetah]

/-! ### Version 0 -/

namespace V0

/-- What `validate:inputs` has checked of one input, under the name it stands under. -/
structure Input.Valid (name : Nname) (inp : Input) : Prop where
  verified : inp.spend.verifyWithoutSignatures inp.note = some true
  assets : inp.giftsAndFee = inp.note.assets
  name_eq : name = inp.note.name

omit [Cheetah] in
/-- The seeds of a verified spend have the hash of its note, and its keys are keys of the lock. -/
theorem Spend.verifyWithoutSignatures_eq_true {sen : Spend} {parentNote : Nnote}
    (h : sen.verifyWithoutSignatures parentNote = some true) :
    ∃ signature hash, sen.signature = some signature ∧ parentNote.hash = some hash ∧
      (∀ sed ∈ sen.seeds, sed.parentHash = hash) ∧ parentNote.sig.m ≤ signature.key.wyt ∧
      parentNote.sig.pubkeys.int signature.key = signature.key := by
  unfold verifyWithoutSignatures at h
  cases hsig : sen.signature with
  | none => simp [hsig] at h
  | some signature =>
    simp only [hsig, bind_eq_some, pure_eq_some, Bool.and_eq_true, ZSet.all_eq_true,
      decide_eq_true_eq, Bool.not_eq_true', decide_eq_false_iff_not, Nat.not_lt] at h
    obtain ⟨hash, hhash, ⟨hseeds, hm⟩, hkeys⟩ := h
    exact ⟨signature, hash, rfl, hhash, hseeds, hm, hkeys⟩

theorem Inputs.valid_of_validate {ips : Inputs} (h : ips.validate = some true) :
    (∃ sigs, ips.signatures = some sigs ∧ batchVerifyAtoms sigs) ∧
      ∀ name inp, ips.get name = some inp → Input.Valid name inp := by
  unfold validate at h
  split at h
  · cases h
  simp only [bind_eq_some, Option.guard_eq_some', allM_eq_some_true,
    Input.validateWithoutSignatures, pure_eq_some, Bool.and_eq_true, decide_eq_true_eq] at h
  obtain ⟨sigs, hsigs, -, hbatch, hall⟩ := h
  refine ⟨⟨sigs, hsigs, hbatch⟩, fun name inp hget => ?_⟩
  obtain ⟨_, ⟨c, hc, rfl⟩, hand, hname⟩ := hall (name, inp) (ZMap.mem_tap.2 hget)
  rw [Bool.and_eq_true, decide_eq_true_eq] at hand
  rw [hand.1] at hc
  exact ⟨hc, hand.2, hname⟩

theorem RawTx.validate_eq_true {raw : RawTx} (h : raw.validate = some true) :
    raw.inputs.validate = some true ∧ raw.totalFees = raw.inputs.rollFees ∧
      raw.computeId = some raw.id := by
  simp only [validate, bind_eq_some, pure_eq_some, Bool.and_eq_true, decide_eq_true_eq] at h
  obtain ⟨c, hc, id, hid, ⟨⟨⟨⟨rfl, hfees⟩, -⟩, -⟩, rfl⟩⟩ := h
  exact ⟨hc, hfees, hid⟩

theorem Tx.validate_eq_true {tx : Tx} (h : tx.validate = some true) :
    tx.rawTx.validate = some true ∧ tx.outputs.validate := by
  simp only [validate, bind_eq_some] at h
  obtain ⟨valid, hvalid, h⟩ := h
  cases valid with
  | false => simp at h
  | true =>
    cases houts : tx.outputs.validate with
    | false => simp [houts] at h
    | true => exact ⟨hvalid, rfl⟩

end V0

variable {form form' : TxAcc}

namespace TxAcc

/-- A version 0 transaction that leads from `form` to `form'`: its outputs lead to `mid`, its
inputs from there to `done`, which differs from `form'` in the size and the record of
transactions only. -/
structure AcceptedV0 (form : TxAcc) (raw : V0.RawTx) (ops : V0.Outputs) (mid done form' : TxAcc) :
    Prop where
  valid : raw.validate = some true
  new : V0.Outputs.new raw.inputs form.height = some ops
  outputs : ops.validate = true
  entered : Ok (ops.val.foldlM addOutputV0 form) mid
  added : Run Adds form (ops.val.map fun op => .v0 op.note) mid
  consumed : ∃ tir, Run (fun acc ip acc' => Ok (consumeInputV0 acc ip) acc') (.unbounded, mid)
    raw.inputs.val (tir, done)
  balance_eq : form'.balance = done.balance
  fees_eq : form'.fees = done.fees
  height_eq : form'.height = done.height
  txs_eq : ∃ size, form'.txs = done.txs.put raw.id (.v0 raw size ops)

theorem acceptedV0_of_ok {raw : V0.RawTx} (h : Ok (v0ToV0 form raw) form') :
    ∃ ops mid done, AcceptedV0 form raw ops mid done form' := by
  simp only [v0ToV0, ok_bind, ok_ofOption, ok_require, ok_pure] at h
  obtain ⟨tx, htx, valid, hvalid, -, rfl, mid, hmid, ⟨tir, done⟩, hdone, -, -, size, -, rfl⟩ := h
  simp only [V0.Tx.new, bind_eq_some, pure_eq_some] at htx
  obtain ⟨ops, hops, totalSize, -, rfl⟩ := htx
  have hval := V0.Tx.validate_eq_true hvalid
  exact ⟨ops, mid, done, {
    valid := hval.1
    new := hops
    outputs := hval.2
    entered := hmid
    added := (run_of_foldlM hmid).map (fun f : TxAcc => f) _ fun _ _ _ hstep => adds_of_addOutputV0 hstep
    consumed := ⟨tir, run_of_foldlM hdone⟩
    balance_eq := rfl
    fees_eq := rfl
    height_eq := rfl
    txs_eq := ⟨size, rfl⟩ }⟩

end TxAcc

/-! ### Version 1 -/

namespace V1

theorem Spends.validate_eq_true {sps : Spends} (h : sps.validate = some true) :
    sps ≠ ∅ ∧ sps.verifySignatures = some true ∧
      ∀ nam sp, sps.get nam = some sp → sp.validateWithoutSignatures := by
  unfold validate at h
  split at h
  · cases h
  rename_i hne
  simp only [bind_eq_some] at h
  obtain ⟨verified, hverified, h⟩ := h
  cases verified with
  | false => simp at h
  | true =>
    simp only [Bool.not_true, Bool.false_eq_true, if_false, Option.pure_def, Option.some.injEq,
      List.all_eq_true] at h
    exact ⟨hne, hverified, fun nam sp hget => h (nam, sp) (ZMap.mem_tap.2 hget)⟩

theorem RawTx.validate_eq_true {raw : RawTx} (h : raw.validate = some true) :
    raw.isBased ∧ raw.computeId = some raw.id ∧ raw.spends.validate = some true := by
  unfold validate at h
  cases hbased : raw.isBased with
  | false => simp [hbased] at h
  | true =>
    simp only [hbased, Bool.not_true, Bool.false_eq_true, if_false, bind_eq_some] at h
    obtain ⟨id, hid, h⟩ := h
    split at h
    · cases h
    · rename_i heq
      rw [not_not] at heq
      exact ⟨rfl, heq ▸ hid, h⟩

theorem Tx.validate_eq_true {tx : Tx} (h : tx.validate = some true) :
    tx.rawTx.validate = some true ∧ tx.outputs.validate = some true := by
  simp only [validate, bind_eq_some] at h
  obtain ⟨valid, hvalid, h⟩ := h
  cases valid with
  | false => simp at h
  | true =>
    simp only [Bool.not_true, Bool.false_eq_true, if_false, bind_eq_some] at h
    obtain ⟨outs, houts, h⟩ := h
    cases outs with
    | false => simp at h
    | true => exact ⟨hvalid, houts⟩

/-- The seeds of a verified `%0` spend have the hash of its note, its keys are keys of the lock, as
many as it asks for or all of them, and its signatures verify. -/
theorem Spend0.verify_eq_true {sen : Spend0} {parentNote : V0.Nnote}
    (h : sen.verify parentNote = some true) :
    (∃ hash, parentNote.hash = some hash ∧ ∀ sed ∈ sen.seeds, sed.parentHash = hash) ∧
      (parentNote.sig.pubkeys = sen.signature.key ∨ parentNote.sig.m ≤ sen.signature.key.wyt ∧
        parentNote.sig.pubkeys.int sen.signature.key = sen.signature.key) ∧
      sen.verifySignatures = some true := by
  simp only [verify, bind_eq_some] at h
  obtain ⟨verified, hverified, h⟩ := h
  cases verified with
  | false => simp at h
  | true =>
    simp only [verifyWithoutSignatures, bind_eq_some] at hverified
    obtain ⟨hash, hhash, hverified⟩ := hverified
    cases hall : sen.seeds.all fun sed => sed.parentHash = hash with
    | false => simp [hall] at hverified
    | true =>
      have hseeds : ∀ sed ∈ sen.seeds, sed.parentHash = hash := by
        simpa using hall
      refine ⟨⟨hash, hhash, hseeds⟩, ?_, by simpa using h⟩
      simp only [hall, Bool.not_true, Bool.false_eq_true, if_false] at hverified
      split at hverified
      · left
        simpa using hverified
      · rename_i hm
        right
        exact ⟨Nat.le_of_not_lt hm, by simpa using hverified⟩

/-- What `validate-with-context:spends` has checked of one spend: there is a note under its name,
of the version of the spend, the lock of the note accepts it, and it gives away its assets. -/
inductive Spend.Checked (balance : Balance) (pageNum : Nat) (nam : Nname) : Spend → Prop where
  | s0 {s : Spend0} {note : V0.Nnote} (get : balance.get nam = some (.v0 note))
      (verified : s.verify note = some true) (assets : (Spend.s0 s).giftsAndFee = note.assets) :
      Checked balance pageNum nam (.s0 s)
  | s1 {s : Spend1} {note : Nnote1} {sigHash : Digest} (get : balance.get nam = some (.v1 note))
      (hash : s.sigHash = some sigHash)
      (checked : (CheckContext.mk pageNum note.originPage sigHash s.witness).check note.name.first
        = some true)
      (assets : (Spend.s1 s).giftsAndFee = note.assets) :
      Checked balance pageNum nam (.s1 s)

/-- What a spend has passed, by its version. -/
theorem Spend.checked_of_ok {balance : Balance} {pageNum maxSize : Nat} {nam : Nname} {sp : Spend}
    (h : Ok (Spends.validateSpendWithContext balance pageNum maxSize nam sp) ()) :
    sp.Checked balance pageNum nam := by
  simp only [Spends.validateSpendWithContext, ok_bind, ok_require] at h
  obtain ⟨-, -, h⟩ := h
  cases hget : balance.get nam with
  | none => simp [hget] at h
  | some note =>
    rw [hget] at h
    cases sp with
    | s0 s =>
      cases note with
      | v1 note => simp at h
      | v0 note =>
        simp only [ok_bind, ok_ofOption, ok_require, checkGiftsAndFee, decide_eq_true_eq] at h
        obtain ⟨verified, hverified, -, rfl, hassets⟩ := h
        exact .s0 hget hverified hassets
    | s1 s =>
      cases note with
      | v0 note => simp at h
      | v1 note =>
        simp only [ok_bind, ok_ofOption, ok_require, checkGiftsAndFee, decide_eq_true_eq] at h
        obtain ⟨sigHash, hsigHash, checked, hchecked, -, rfl, hassets⟩ := h
        exact .s1 hget hsigHash hchecked hassets

/-- The note that a checked spend consumes. -/
theorem Spend.Checked.note {balance : Balance} {pageNum : Nat} {nam : Nname} {sp : Spend}
    (h : sp.Checked balance pageNum nam) :
    ∃ note, balance.get nam = some note ∧ sp.giftsAndFee = note.assets := by
  cases h with
  | s0 hget _ hassets | s1 hget _ _ hassets => exact ⟨_, hget, hassets⟩

end V1

namespace TxAcc

/-- A version 1 transaction that leads from `form` to `form'`: its outputs lead to `mid`, its
inputs from there to `done`, which has not collected the fees yet. -/
structure AcceptedV1 (form : TxAcc) (raw : V1.RawTx) (outs : V1.Outputs)
    (mid done form' : TxAcc) : Prop where
  valid : raw.validate = some true
  new : V1.Tx.buildOutputs raw form.height = some outs
  outputs : outs.validate = some true
  entered : Ok (outs.tap.foldlM addOutputV1 form) mid
  spends : ∀ nam sp, raw.spends.get nam = some sp → sp.Checked form.balance form.height nam
  added : Run Adds form (outs.tap.map V1.Output.note) mid
  consumed : Run (fun f nam f' => Ok (consumeInputV1 f nam) f') mid raw.spends.key.tap done
  balance_eq : form'.balance = done.balance
  fees_eq : form'.fees = done.fees + raw.spends.rollFees
  height_eq : form'.height = done.height
  txs_eq : ∃ tx : V1.Tx, tx.rawTx = raw ∧ form'.txs = done.txs.put raw.id (.v1 tx)

/-- What a transaction of version 1 has passed when it is processed without an error. -/
theorem acceptedV1_of_ok {bc : BlockchainConstants} {raw : V1.RawTx}
    (h : Ok (v1ToV1 bc form raw) form') :
    ∃ outs mid done, AcceptedV1 form raw outs mid done form' := by
  simp only [v1ToV1, ok_bind, ok_ofOption, ok_require, ok_pure] at h
  obtain ⟨tx, htx, valid, hvalid, -, rfl, _, hctx, -, -, mid, hmid, done, hdone, size, -, id, hid,
    rfl⟩ := h
  simp only [V1.Tx.new, bind_eq_some, pure_eq_some] at htx
  obtain ⟨outs, houts, totalSize, -, rfl⟩ := htx
  have hval := V1.Tx.validate_eq_true hvalid
  have heq : id = raw.id := Option.some.inj (hid.symm.trans (V1.RawTx.validate_eq_true hval.1).2.1)
  exact ⟨outs, mid, done, {
    valid := hval.1
    new := houts
    outputs := hval.2
    entered := hmid
    spends := fun nam sp hget =>
      V1.Spend.checked_of_ok (ok_forM.1 hctx (nam, sp) (ZMap.mem_tap.2 hget))
    added := (run_of_foldlM hmid).map (fun f : TxAcc => f) V1.Output.note fun _ _ _ hstep =>
      adds_of_addOutputV1 hstep
    consumed := run_of_foldlM hdone
    balance_eq := rfl
    fees_eq := rfl
    height_eq := rfl
    txs_eq := ⟨_, rfl, by rw [heq]⟩ }⟩

/-- A transaction of either version that leads from `form` to `form'`. -/
inductive Accepted (bc : BlockchainConstants) (form : TxAcc) : RawTx → TxAcc → Prop where
  | v0 {raw : V0.RawTx} {ops : V0.Outputs} {mid done form' : TxAcc}
      (height : form.height < bc.v1Phase) (accepted : AcceptedV0 form raw ops mid done form') :
      Accepted bc form (.v0 raw) form'
  | v1 {raw : V1.RawTx} {outs : V1.Outputs} {mid done form' : TxAcc}
      (height : bc.v1Phase ≤ form.height) (accepted : AcceptedV1 form raw outs mid done form') :
      Accepted bc form (.v1 raw) form'

theorem accepted_of_process {bc : BlockchainConstants} {raw : RawTx}
    (h : process bc form raw = .ok form') : Accepted bc form raw form' := by
  rw [process_eq_ok] at h
  cases raw with
  | v0 raw =>
    simp only [dispatch] at h
    split at h
    · simp at h
    · rename_i hheight
      obtain ⟨ops, mid, done, hacc⟩ := acceptedV0_of_ok h
      exact .v0 (Nat.lt_of_not_le hheight) hacc
  | v1 raw =>
    simp only [dispatch] at h
    split at h
    · simp at h
    · rename_i hheight
      obtain ⟨outs, mid, done, hacc⟩ := acceptedV1_of_ok h
      exact .v1 (Nat.le_of_not_lt hheight) hacc

end TxAcc

end Nockchain.TxEngine
