import Nockchain.Proofs.HashTable
import Nockchain.Proofs.TxEngine.Accepted

/-!
# `Nockchain.Proofs.TxEngine.Authorised`: what a consumed note has been shown

What the lock of a note asks for, in its own terms and apart from the order in
which the source checks it: `Spend1.Authorised` for a version 1 note and its
spend condition, `Spend0.Authorised` for a version 0 note and its m-of-n lock.
Every note that an accepted version 1 transaction takes out of the balance has a
spend that is authorised in this sense (`authorised_of_process`).
-/

set_option autoImplicit false

namespace Nockchain.TxEngine

open Lib Reason TxAcc ZMap Option

/-!
## Which seeds are bound to the note they spend

A signature covers the seeds and the fee of a spend, and the parent hash in each
seed is what ties it to one note. `validate:input` and `verify:spend-0` compare
it with the hash of the note. `validate-with-context:spends` checks the lock of
a version 1 note with `check:check-context`, which does not; `verify:spend-1`
would, and is not called. So the seeds of an accepted transaction are bound to
the notes it consumes exactly when those of its `%1` spends are
(`seedsBound_iff`).
-/

section Replay

variable [Tip5]

/-- The accumulator with the outputs of a transaction entered, from which its inputs are
consumed. -/
def TxAcc.enterOutputs (form : TxAcc) : RawTx → Reason TxAcc
  | .v0 raw => do
    let outputs ← Reason.ofOption (V0.Outputs.new raw.inputs form.height)
    outputs.val.foldlM addOutputV0 form
  | .v1 raw => do
    let outputs ← Reason.ofOption (V1.Tx.buildOutputs raw form.height)
    outputs.tap.foldlM addOutputV1 form

/-- There is a note under a name of a balance, and these parent hashes are its hash. -/
def BoundTo (balance : Balance) (nam : Nname) (parentHashes : List Digest) : Prop :=
  ∃ note hash, balance.get nam = some note ∧ note.hash = some hash ∧
    ∀ parentHash ∈ parentHashes, parentHash = hash

/-- Every seed of every spend of a transaction has the hash of the note that it consumes. -/
def SeedsBound (balance : Balance) : RawTx → Prop
  | .v0 raw => ∀ nam inp, raw.inputs.get nam = some inp →
      BoundTo balance nam (inp.spend.seeds.tap.map V0.Seed.parentHash)
  | .v1 raw => ∀ nam sp, raw.spends.get nam = some sp →
      BoundTo balance nam (sp.seeds.tap.map V1.Seed.parentHash)

/-- The same of the `%1` spends alone. -/
def WitnessedSeedsBound (balance : Balance) : RawTx → Prop
  | .v0 _ => True
  | .v1 raw => ∀ nam s, raw.spends.get nam = some (.s1 s) →
      BoundTo balance nam (s.seeds.tap.map V1.Seed.parentHash)

variable [Cheetah]

variable {form mid done form' : TxAcc}

theorem AcceptedV0.seedsBound {raw : V0.RawTx} {ops : V0.Outputs}
    (h : TxAcc.AcceptedV0 form raw ops mid done form') : SeedsBound mid.balance (.v0 raw) := by
  intro nam inp hget
  obtain ⟨hinputs, -, -⟩ := V0.RawTx.validate_eq_true h.valid
  have hvalid := (V0.Inputs.valid_of_validate hinputs).2 nam inp hget
  obtain ⟨-, hash, -, hhash, hseeds, -, -⟩ :=
    V0.Spend.verifyWithoutSignatures_eq_true hvalid.verified
  obtain ⟨tir, hconsumed⟩ := h.consumed
  have hmem : inp ∈ raw.inputs.val := mem_val.2 ⟨nam, hget⟩
  have hnote := get_of_mem_consumeInputsV0 hconsumed hmem
  rw [← hvalid.name_eq] at hnote
  refine ⟨.v0 inp.note, hash, hnote, hhash, ?_⟩
  simpa using hseeds

/-- A `%0` spend is bound by `verify:spend-0`, whatever is known of the other spends. -/
theorem AcceptedV1.boundTo_s0 {raw : V1.RawTx} {outs : V1.Outputs}
    (h : TxAcc.AcceptedV1 form raw outs mid done form') {nam : Nname} {s : V1.Spend0}
    (hget : raw.spends.get nam = some (.s0 s)) :
    BoundTo form.balance nam (s.seeds.tap.map V1.Seed.parentHash) := by
  cases h.spends nam (.s0 s) hget with
  | @s0 _ note hnote hverified _ =>
    obtain ⟨⟨hash, hhash, hseeds⟩, -, -⟩ := V1.Spend0.verify_eq_true hverified
    refine ⟨.v0 note, hash, hnote, hhash, ?_⟩
    simpa using hseeds

/-- Entering the outputs leaves the note of every spend where it was. -/
theorem AcceptedV1.boundTo_iff {raw : V1.RawTx} {outs : V1.Outputs}
    (h : TxAcc.AcceptedV1 form raw outs mid done form') {nam : Nname} {sp : V1.Spend}
    (hget : raw.spends.get nam = some sp) (parentHashes : List Digest) :
    BoundTo mid.balance nam parentHashes ↔ BoundTo form.balance nam parentHashes := by
  obtain ⟨note, hnote, -⟩ := (h.spends nam sp hget).note
  have hmid : mid.balance.get nam = form.balance.get nam := by
    rw [hnote]
    exact TxAcc.Adds.get_of_run h.added hnote
  rw [BoundTo, BoundTo, hmid]

/-- The seeds of an accepted transaction are bound to the notes that it consumes exactly when
those of its `%1` spends are. -/
theorem seedsBound_iff {bc : BlockchainConstants} {form form' : TxAcc} {raw : RawTx}
    (h : TxAcc.process bc form raw = .ok form') : ∃ mid, Ok (form.enterOutputs raw) mid ∧
      (SeedsBound mid.balance raw ↔ WitnessedSeedsBound form.balance raw) := by
  cases accepted_of_process h with
  | @v0 raw ops mid done _ _ hacc =>
    refine ⟨mid, ?_, fun _ => trivial, fun _ => AcceptedV0.seedsBound hacc⟩
    simp only [enterOutputs, ok_bind, ok_ofOption]
    exact ⟨ops, hacc.new, hacc.entered⟩
  | @v1 raw outs mid done _ _ hacc =>
    refine ⟨mid, ?_, fun hall nam s hget => ?_, fun hall nam sp hget => ?_⟩
    · simp only [enterOutputs, ok_bind, ok_ofOption]
      exact ⟨outs, hacc.new, hacc.entered⟩
    · exact (AcceptedV1.boundTo_iff hacc hget _).1 (hall nam _ hget)
    · rw [AcceptedV1.boundTo_iff hacc hget]
      cases sp with
      | s0 s => exact AcceptedV1.boundTo_s0 hacc hget
      | s1 s => exact hall nam s hget

end Replay

section Replayed

open V1

-- What the transactions below hash: the key, the lock, the signature, the notes and their parts.
local instance replayTip5 : Tip5 :=
  tableTip5 [toNoun (default : SchnorrPubkey), .atom (Noun.tas "pkh"), .atom 1, .atom 0,
      toNoun (default : SchnorrSignature), .atom (2 ^ 22), .atom (2 ^ 22 + 1)]
    (([(6, 6), (0, 1), (4, 3), (2, 5), (7, 6), (6, 9), (0, 6), (11, 13), (9, 6)].map
        fun x => (.ofNat x.1, .ofNat x.2)) ++
      [(LockMerkleProof.axisDigest, .ofNat 17)] ++
      ([(9, 19), (0, 8), (0, 23), (25, 1), (27, 1), (21, 29), (4, 0), (6, 33), (9, 35), (37, 1),
          (39, 10), (31, 41), (4, 43), (15, 45), (47, 1), (4, 49), (1, 6), (11, 53), (55, 45),
          (57, 1), (4, 59), (6, 37), (63, 1), (65, 10), (39, 4), (69, 6), (6, 71), (6, 12), (15, 75),
          (6, 77), (4, 79)].map
        fun x => (.ofNat x.1, .ofNat x.2)))

local instance replayCheetah : Cheetah := ⟨fun _ _ _ _ => true⟩

/-- One signature by one key. -/
def replayLock : SpendCondition := [.pkh ⟨1, ZSet.put ∅ (.ofNat 0)⟩]

/-- A note under the lock, by the last part of its name. -/
def replayNote (last : Nat) : V1.Nnote :=
  .v1 { originPage := 0, name := ⟨.ofNat 11, .ofNat last⟩, noteData := ∅, assets := 2 ^ 22 + 1 }

/-- A signed spend of assets as the notes have, whose seed has the hash of none of them. -/
def replaySpend : V1.Spend :=
  .s1 {
    witness := ⟨⟨replayLock, 1, ⟨.ofNat 9, []⟩⟩, put ∅ (.ofNat 0) (default, default), ∅⟩
    seeds := ZSet.put ∅ ⟨none, .ofNat 9, ∅, 1, .ofNat 0⟩
    fee := 2 ^ 22 }

def replayRaw (id last : Nat) : V1.RawTx :=
  ⟨.ofNat id, put ∅ (replayNote last).name replaySpend⟩

def replayForm : TxAcc :=
  new (some (gas ∅ [((replayNote 0).name, replayNote 0),
    ((replayNote 1).name, replayNote 1)])) 39000

theorem replayRaw_accepted : (process {} replayForm (.v1 (replayRaw 51 0))).isOk ∧
      (process {} replayForm (.v1 (replayRaw 61 1))).isOk := by
  decide +kernel

/-- The hash in the seed of the spend is not that of the note. -/
theorem replaySpend_not_boundTo : ¬ BoundTo replayForm.balance (replayNote 0).name
      (replaySpend.seeds.tap.map V1.Seed.parentHash) := by
  intro ⟨note, hash, hnote, hhash, hall⟩
  have hget : replayForm.balance.get (replayNote 0).name = some (replayNote 0) := by
    decide +kernel
  obtain rfl : replayNote 0 = note := mem_unique hget hnote
  have hparent : Digest.ofNat 0 = hash := hall _ (by decide +kernel)
  have hne : (replayNote 0).hash ≠ some (.ofNat 0) := by decide +kernel
  exact hne (hparent ▸ hhash)

/-- One signed spend is accepted for two notes with the same lock and the same assets, and its
seed does not have the hash of the note that it consumes. -/
theorem not_seedsBound_replayRaw :
    (∃ form', TxAcc.process {} replayForm (.v1 (replayRaw 51 0)) = .ok form') ∧
    (∃ form', TxAcc.process {} replayForm (.v1 (replayRaw 61 1)) = .ok form') ∧
    (replayNote 0).name.first = (replayNote 1).name.first ∧
    (replayNote 0).assets = (replayNote 1).assets ∧ replayNote 0 ≠ replayNote 1 ∧
    ∃ mid, Ok (replayForm.enterOutputs (.v1 (replayRaw 51 0))) mid ∧
      ¬ SeedsBound mid.balance (.v1 (replayRaw 51 0)) := by
  have hspend : (replayRaw 51 0).spends.get (replayNote 0).name = some replaySpend := by
    decide +kernel
  obtain ⟨form', hform'⟩ := exists_process_eq_ok replayRaw_accepted.1
  refine ⟨⟨form', hform'⟩, exists_process_eq_ok replayRaw_accepted.2, rfl, rfl,
    by decide +kernel, ?_⟩
  cases accepted_of_process hform' with
  | @v1 _ outs mid done _ _ hacc =>
    refine ⟨mid, ?_, fun hall => ?_⟩
    · simp only [enterOutputs, ok_bind, ok_ofOption]
      exact ⟨outs, hacc.new, hacc.entered⟩
    · have hmid := hall _ _ hspend
      rw [AcceptedV1.boundTo_iff hacc hspend] at hmid
      exact replaySpend_not_boundTo hmid

theorem seedsBound_iff_replayRaw : ∃ mid, Ok (replayForm.enterOutputs (.v1 (replayRaw 51 0))) mid ∧
      (SeedsBound mid.balance (.v1 (replayRaw 51 0)) ↔
        WitnessedSeedsBound replayForm.balance (.v1 (replayRaw 51 0))) := by
  obtain ⟨form', hform'⟩ := exists_process_eq_ok replayRaw_accepted.1
  exact seedsBound_iff hform'

end Replayed

section Authorised

variable [Tip5] [Cheetah]

namespace V1

/-! ### What a lock asks for -/

/-- The signatures of a witness satisfy `%pkh`: there are `m`, by different keys, and each is by a
key whose hash is listed and valid for the digest. -/
structure Pkh.Signed (p : Pkh) (sigHash : Digest) (sigs : PkhSignature) : Prop where
  count : sigs.tap.length = p.m
  distinct : (sigs.tap.map fun x => x.2.1).Nodup
  listed : ∀ h pk sg, sigs.get h = some (pk, sg) → h ∈ p.h
  hash : ∀ h pk sg, sigs.get h = some (pk, sg) → hashHashable pk.hashable = some h
  valid : ∀ h pk sg, sigs.get h = some (pk, sg) → verifySignature pk sigHash sg = true

/-- The witness reveals a preimage of every hash of `%hax`. -/
def Hax.Revealed (h : Hax) (preimages : ZMap Digest Noun) : Prop :=
  ∀ hash ∈ h, ∃ preimage, preimages.get hash = some preimage ∧ hashNoun preimage = some hash

/-- The page number `now` lies in both windows of `%tim`, the relative one counted from `since`. -/
structure Tim.Open (t : Tim) (since now : Nat) : Prop where
  rel_min : ∀ u ∈ t.rel.min, since + u ≤ now
  rel_max : ∀ u ∈ t.rel.max, now ≤ since + u
  abs_min : ∀ u ∈ t.abs.min, u ≤ now
  abs_max : ∀ u ∈ t.abs.max, now ≤ u

/-- What each primitive asks of a witness. -/
def LockPrimitive.Satisfied (ctx : CheckContext) : LockPrimitive → Prop
  | .pkh p => p.Signed ctx.sigHash ctx.witness.pkh
  | .hax h => Hax.Revealed h ctx.witness.hax
  | .tim t => t.Open ctx.since ctx.now
  | .brn => False

/-- A spend of a version 1 note on a page: its witness reveals a spend condition with the root that
the first name of the note is made of, and satisfies all of its primitives for the digest that
the spend signs. -/
structure Spend1.Authorised (s : Spend1) (note : Nnote1) (pageNum : Nat) : Prop where
  lock : ∃ root, s.witness.lmp.spendCondition.hash = some root ∧
    nnameFirst root = some note.name.first
  no_brn : LockPrimitive.brn ∉ s.witness.lmp.spendCondition
  satisfied : ∃ sigHash, s.sigHash = some sigHash ∧ ∀ p ∈ s.witness.lmp.spendCondition,
    p.Satisfied ⟨pageNum, note.originPage, sigHash, s.witness⟩

/-- A spend of a version 0 note: its signatures are by keys of the lock, valid for the digest that
the spend signs, and at least as many as the lock asks for or by all of its keys. -/
structure Spend0.Authorised (s : Spend0) (note : V0.Nnote) : Prop where
  key : ∀ pk sg, s.signature.get pk = some sg → pk ∈ note.sig.pubkeys
  valid : ∀ pk sg, s.signature.get pk = some sg →
    ∃ sigHash, s.sigHash = some sigHash ∧ verifySignature pk sigHash sg = true
  enough : note.sig.m ≤ s.signature.key.wyt ∨ s.signature.key = note.sig.pubkeys

/-- The spend of a note of either version. -/
inductive Spend.Authorised (pageNum : Nat) : Nnote → Spend → Prop where
  | s0 {s : Spend0} {note : V0.Nnote} (h : s.Authorised note) : Authorised pageNum (.v0 note) (.s0 s)
  | s1 {s : Spend1} {note : Nnote1} (h : s.Authorised note pageNum) :
      Authorised pageNum (.v1 note) (.s1 s)

/-! ### What the checks give -/

omit [Cheetah] in
/-- The checks are restricted to axis 1, where the root is the hash of the condition. -/
theorem LockMerkleProof.lock_of_check {l : LockMerkleProof} {first : Digest}
    (h : l.check first = some true) :
    ∃ root, l.spendCondition.hash = some root ∧ nnameFirst root = some first := by
  unfold check at h
  split at h
  · cases h
  rename_i haxis
  rw [not_not] at haxis
  simp only [bind_eq_some] at h
  obtain ⟨name, hname, h⟩ := h
  split at h
  · cases h
  rename_i hfirst
  rw [not_not] at hfirst
  obtain ⟨leaf, hleaf, h⟩ := bind_eq_some.1 h
  have hroot : l.merkProof.root = leaf := by
    simp [haxis, verifyMerkProof, verifyMerkPath] at h
    exact h.1
  exact ⟨leaf, hleaf, by rw [← hroot, ← hfirst]; exact hname⟩

theorem PkhSignature.valid_of_batchVerify {p : PkhSignature} {sigHash : Digest}
    (h : batchVerify (p.signatures sigHash)) {k : Digest} {pk : SchnorrPubkey}
    {sg : SchnorrSignature} (hget : p.get k = some (pk, sg)) : verifySignature pk sigHash sg := by
  rw [batchVerify, List.all_eq_true] at h
  exact h (pk, sigHash, sg) (mem_rep_cons.2 ⟨k, (pk, sg), hget, rfl⟩)

theorem Spend0.valid_of_verifySignatures {s : Spend0} (h : s.verifySignatures = some true)
    {pk : SchnorrPubkey} {sg : SchnorrSignature} (hget : s.signature.get pk = some sg) :
    ∃ sigHash, s.sigHash = some sigHash ∧ verifySignature pk sigHash sg := by
  simp only [verifySignatures, bind_eq_some, pure_eq_some, signatures] at h
  obtain ⟨batch, hbatch, hvalid⟩ := h
  rw [batchVerify, List.all_eq_true] at hvalid
  obtain ⟨⟨pk', digest, sg'⟩, hmem, hx⟩ :=
    exists_of_mem_forall₂ (forall₂_of_mapM hbatch).flip (mem_tap.2 hget : (pk, sg) ∈ _)
  simp only [bind_eq_some, pure_eq_some, Prod.mk.injEq] at hx
  obtain ⟨sigHash, hsigHash, rfl, rfl, rfl⟩ := hx
  exact ⟨sigHash, hsigHash, hvalid _ hmem⟩

variable {ctx : CheckContext}

/-- A check that passes has as many valid signatures by keys of the lock as the lock asks for. -/
theorem Pkh.signed_of_check {p : Pkh} (h : p.check ctx = some true) :
    p.Signed ctx.sigHash ctx.witness.pkh := by
  unfold check at h
  split at h
  · cases h
  rename_i hm
  split at h
  · cases h
  rename_i hdif
  rw [not_not] at hm hdif
  obtain ⟨matched, hmatch, h⟩ := bind_eq_some.1 h
  cases matched with
  | false => simp at h
  | true =>
    -- Every key stands under its own hash.
    have hhash : ∀ k pk sg, ctx.witness.pkh.get k = some (pk, sg) →
        hashHashable pk.hashable = some k := by
      intro k pk sg hget
      have hk := of_repM_and_eq_true hmatch hget
      simp only [bind_eq_some, pure_eq_some, decide_eq_true_eq] at hk
      obtain ⟨d, hd, rfl⟩ := hk
      exact hd
    refine ⟨?_, ?_, ?_, hhash, ?_⟩
    · rw [length_tap, hm]
    · -- Entries with the same key stand under the same hash, so they are one.
      refine List.Nodup.map_on ?_ ctx.witness.pkh.nodup_tap
      intro ⟨k, pk, sg⟩ hk ⟨k', pk', sg'⟩ hk' heq
      rw [mem_tap] at hk hk'
      obtain rfl : pk = pk' := heq
      obtain rfl : k = k' :=
        mem_unique (hhash k pk sg hk) (hhash k' pk sg' hk')
      rw [show (pk, sg) = (pk, sg') from mem_unique hk hk']
    · intro k pk sg hget
      by_contra hlisted
      have hmem : k ∈ ctx.witness.pkh.key.dif p.h := by
        simp [hget, hlisted]
      rw [hdif] at hmem
      exact ZSet.not_mem_empty k hmem
    · intro k pk sg hget
      have hbatch : batchVerify (ctx.witness.pkh.signatures ctx.sigHash) := by
        simpa using h
      exact ctx.witness.pkh.valid_of_batchVerify hbatch hget

omit [Cheetah] in
theorem Hax.revealed_of_check {h : Hax} (hc : Hax.check h ctx = some true) :
    Hax.Revealed h ctx.witness.hax := by
  intro hash hmem
  have hone := ZSet.allM_eq_some_true.1 hc hash hmem
  cases hget : ctx.witness.hax.get hash with
  | none => simp [hget] at hone
  | some preimage =>
    simp only [hget, bind_eq_some, pure_eq_some, decide_eq_true_eq] at hone
    obtain ⟨d, hd, rfl⟩ := hone
    exact ⟨preimage, rfl, hd⟩

omit [Cheetah] in
theorem Tim.open_of_check {t : Tim} (h : t.check ctx) : t.Open ctx.since ctx.now := by
  simp only [check, Bool.and_eq_true, all_eq_true, decide_eq_true_eq] at h
  obtain ⟨⟨⟨hrelMin, hrelMax⟩, habsMin⟩, habsMax⟩ := h
  exact ⟨hrelMin, hrelMax, habsMin, habsMax⟩

theorem LockPrimitive.satisfied_of_check {p : LockPrimitive}
    (h : p.check ctx = some true) : p.Satisfied ctx := by
  cases p with
  | pkh p => exact Pkh.signed_of_check h
  | hax x => exact Hax.revealed_of_check h
  | tim t => exact Tim.open_of_check (some.inj h)
  | brn => cases h

theorem CheckContext.check_eq_true {first : Digest} (h : ctx.check first = some true) :
    (∃ root, ctx.witness.lmp.spendCondition.hash = some root ∧ nnameFirst root = some first) ∧
      ∀ p ∈ ctx.witness.lmp.spendCondition, p.Satisfied ctx := by
  obtain ⟨proved, hproved, h⟩ := bind_eq_some.1 h
  cases proved with
  | false => simp at h
  | true =>
    have hall : ctx.witness.lmp.spendCondition.allM (LockPrimitive.check ctx) = some true := by
      simpa using h
    rw [allM_eq_some_true] at hall
    exact ⟨LockMerkleProof.lock_of_check hproved, fun p hp =>
      LockPrimitive.satisfied_of_check (hall p hp)⟩

theorem Spend0.authorised_of_verify {s : Spend0} {note : V0.Nnote}
    (h : s.verify note = some true) : s.Authorised note := by
  obtain ⟨-, hkeys, hsigs⟩ := Spend0.verify_eq_true h
  have hint : note.sig.pubkeys = s.signature.key ∨
      note.sig.pubkeys.int s.signature.key = s.signature.key := hkeys.imp_right And.right
  refine ⟨fun pk sg hget => ?_, fun pk sg hget => ?_, ?_⟩
  · have hpk : pk ∈ s.signature.key := mem_key.2 ⟨sg, hget⟩
    rcases hint with heq | hint
    · rwa [heq]
    · rw [← hint, ZSet.mem_int] at hpk
      exact hpk.1
  · exact Spend0.valid_of_verifySignatures hsigs hget
  · exact hkeys.symm.imp And.left Eq.symm

/-- A checked spend of a note is authorised by it. -/
theorem Spend.Checked.authorised {balance : Balance} {pageNum : Nat} {nam : Nname} {sp : Spend}
    {note : Nnote} (h : sp.Checked balance pageNum nam) (hnote : balance.get nam = some note) :
    sp.Authorised pageNum note := by
  cases h with
  | s0 hget hverified _ =>
    obtain rfl := mem_unique hget hnote
    exact .s0 (Spend0.authorised_of_verify hverified)
  | s1 hget hhash hchecked _ =>
    obtain rfl := mem_unique hget hnote
    obtain ⟨hlock, hall⟩ := CheckContext.check_eq_true hchecked
    exact .s1 ⟨hlock, fun hbrn => hall _ hbrn, _, hhash, hall⟩

end V1

/-- Every note that an accepted version 1 transaction takes out of the balance stands under the
name of one of its spends, and the spend is authorised by it. -/
theorem authorised_of_process {bc : BlockchainConstants} {form form' : TxAcc} {raw : V1.RawTx}
    (h : TxAcc.process bc form (.v1 raw) = .ok form') {nam : Nname} {note : Nnote}
    (hnote : form.balance.get nam = some note) (hgone : form'.balance.get nam = none) :
    ∃ sp, raw.spends.get nam = some sp ∧ sp.Authorised form.height note := by
  cases accepted_of_process h with
  | @v1 _ outs mid done _ _ hacc =>
    have hmid : mid.balance.get nam = some note := TxAcc.Adds.get_of_run hacc.added hnote
    have hkey : nam ∈ raw.spends.key.tap := by
      by_contra hkey
      have hleft := TxAcc.Removes.get_run (removes_of_consumeInputsV1 hacc.consumed) nam
      rw [if_neg hkey, hmid, ← hacc.balance_eq, hgone] at hleft
      cases hleft
    obtain ⟨sp, hsp⟩ := mem_key.1 (ZSet.mem_tap.1 hkey)
    exact ⟨sp, hsp, (hacc.spends nam sp hsp).authorised hnote⟩

end Authorised

section Signed

local instance signedTip5 : Tip5 := replayTip5

local instance signedCheetah : Cheetah := replayCheetah

theorem authorised_of_process_replayRaw :
    ∃ form', TxAcc.process {} replayForm (.v1 (replayRaw 51 0)) = .ok form' ∧
      replayForm.balance.get (replayNote 0).name = some (replayNote 0) ∧
      form'.balance.get (replayNote 0).name = none ∧
      ∃ sp, (replayRaw 51 0).spends.get (replayNote 0).name = some sp ∧
        sp.Authorised replayForm.height (replayNote 0) := by
  obtain ⟨form', hform'⟩ := exists_process_eq_ok replayRaw_accepted.1
  have hnote : replayForm.balance.get (replayNote 0).name = some (replayNote 0) := by
    decide +kernel
  have hgone : ((process {} replayForm (.v1 (replayRaw 51 0))).toOption.bind
      fun form' => form'.balance.get (replayNote 0).name) = none := by
    decide +kernel
  rw [hform'] at hgone
  exact ⟨form', hform', hnote, hgone, authorised_of_process hform' hnote hgone⟩

end Signed

end Nockchain.TxEngine
