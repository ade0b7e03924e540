import Nockchain.Lib.Transfer
import Nockchain.Proofs.TxEngine.Accepted

/-!
# `Nockchain.Proofs.TxEngine.Transfer`: transactions as transfers

`process:tx-acc` enters the output notes of a transaction and then takes out the
notes under its input names. It reads the balance at the inputs and the outputs
only, so its accumulators of one height are a machine of transfers
(`transfer_process`).
-/

set_option autoImplicit false

namespace Nockchain.TxEngine

open Lib Reason RawTx ZMap List

variable [Tip5]

namespace RawTx

/-- The notes that a transaction creates at a height. -/
def outputNotes (height : Nat) : RawTx → Option (List Nnote)
  | .v0 raw => do
    let ops ← V0.Outputs.new raw.inputs height
    return ops.val.map fun op => .v0 op.note
  | .v1 raw => do
    let outs ← V1.Tx.buildOutputs raw height
    return outs.tap.map V1.Output.note

/-- The names under which it takes notes out. -/
def ins (raw : RawTx) : Set Nname := { nam | nam ∈ raw.inputNames }

/-- The names under which it enters notes. -/
def outs (height : Nat) (raw : RawTx) : Set Nname :=
  { nam | ∃ notes, raw.outputNotes height = some notes ∧ ∃ note ∈ notes, note.name = nam }

/-- The note that it enters under a name. -/
def noteAt (height : Nat) (raw : RawTx) (nam : Nname) : Option Nnote :=
  (raw.outputNotes height).bind fun notes => notes.find? fun note => note.name = nam

/-- What a transaction pays. -/
def fees : RawTx → Nat
  | .v0 raw => (raw.inputs.val.map fun ip => ip.spend.fee).sum
  | .v1 raw => raw.spends.rollFees

end RawTx

/-- The transaction that a `$tx` records. -/
def Tx.IsOf (raw : RawTx) : Tx → Prop
  | .v0 rawTx _ _ => raw = .v0 rawTx
  | .v1 tx => raw = .v1 tx.rawTx

namespace TxAcc

/-! ### Notes that come and go -/

variable {nam : Nname}

namespace Adds

variable {f f' : TxAcc} {notes : List Nnote}

/-- The names of entered notes are free at first. -/
theorem fresh_of_run (h : Run Adds f notes f') {note : Nnote} (hnote : note ∈ notes) :
    f.balance.get note.name = none := by
  induction h with
  | nil f => cases hnote
  | @cons f mid f' first notes hstep _ ih =>
    rcases mem_cons.1 hnote with rfl | hnote
    · exact hstep.1
    have hmid := ih hnote
    rw [hstep.2, get_put] at hmid
    split at hmid
    · cases hmid
    · exact hmid

/-- Entered notes are there afterwards. -/
theorem get_of_mem_run (h : Run Adds f notes f') {note : Nnote} (hnote : note ∈ notes) :
    f'.balance.get note.name = some note := by
  induction h with
  | nil f => cases hnote
  | @cons f mid f' first notes hstep hrest ih =>
    rcases mem_cons.1 hnote with rfl | hnote
    · refine get_of_run hrest ?_
      rw [hstep.2, get_put, if_pos rfl]
    · exact ih hnote

/-- Under other names nothing changes. -/
theorem get_eq_of_run (h : Run Adds f notes f')
    (hnam : ∀ note ∈ notes, note.name ≠ nam) : f'.balance.get nam = f.balance.get nam := by
  refine h.invariant (fun f' => f'.balance.get nam = f.balance.get nam) ?_ rfl
  intro b note b' hnote hstep hb
  rw [hstep.2, get_put, if_neg fun heq => hnam note hnote heq.symm, hb]

end Adds

/-- A note that is taken out was there at first. -/
theorem Removes.exists_get_of_run {b b' : Balance} {names : List Nname}
    (h : Run Removes b names b') (hnam : nam ∈ names) : ∃ note, b.get nam = some note := by
  induction h with
  | nil b => cases hnam
  | @cons b mid b' first names hstep _ ih =>
    rcases mem_cons.1 hnam with rfl | hnam
    · exact hstep.1
    · obtain ⟨note, hnote⟩ := ih hnam
      exact ⟨note, Removes.get_of_run (.cons hstep (.nil mid)) hnote⟩

variable [Cheetah]

/-- An accepted transaction enters its output notes and takes out those under its input names. -/
structure Moves (f : TxAcc) (raw : RawTx) (notes : List Nnote) (names : List Nname)
    (mid f' : TxAcc) : Prop where
  notes_eq : raw.outputNotes f.height = some notes
  mem_names : ∀ nam, nam ∈ names ↔ nam ∈ raw.ins
  added : Run Adds f notes mid
  removed : Run Removes mid.balance names f'.balance
  height_eq : f'.height = f.height
  fees_eq : f'.fees = f.fees + raw.fees
  txs_eq : ∃ tx : Tx, tx.IsOf raw ∧ f'.txs = f.txs.put raw.id tx

variable {raw : V0.RawTx}

/-- The notes that valid inputs carry stand under the names of the inputs. -/
theorem mem_names_iff (h : raw.validate = some true) (nam : Nname) :
    nam ∈ (raw.inputs.val.map fun ip => ip.note.name) ↔ nam ∈ (v0 raw).ins := by
  have hname : ∀ nam inp, raw.inputs.get nam = some inp → nam = inp.note.name := fun nam inp hget =>
    ((V0.Inputs.valid_of_validate (V0.RawTx.validate_eq_true h).1).2 nam inp hget).name_eq
  rw [val_eq, map_map, mem_map]
  constructor
  · rintro ⟨⟨key, ip⟩, hmem, rfl⟩
    have hget := mem_tap.1 hmem
    show ip.note.name ∈ raw.inputs.key
    rw [← hname key ip hget]
    exact mem_key.2 ⟨ip, hget⟩
  · intro hmem
    obtain ⟨ip, hget⟩ := mem_key.1 (show nam ∈ raw.inputs.key from hmem)
    exact ⟨(nam, ip), mem_tap.2 hget, (hname nam ip hget).symm⟩

/-- A transaction of version 0 takes out the notes of its inputs and enters those of its outputs. -/
theorem moves_of_acceptedV0 {form mid done form' : TxAcc} {ops : V0.Outputs}
    (h : AcceptedV0 form raw ops mid done form') :
    Moves form (.v0 raw) (ops.val.map fun op => .v0 op.note)
      (raw.inputs.val.map fun ip => ip.note.name) mid form' := by
  obtain ⟨tir, hconsumed⟩ := h.consumed
  have hheight : done.height = mid.height := by
    refine hconsumed.invariant (fun acc => acc.2.height = mid.height) ?_ rfl
    intro b ip b' _ hstep hb
    rwa [(ok_consumeInputV0 hstep).2]
  have htxs : done.txs = mid.txs := by
    refine hconsumed.invariant (fun acc => acc.2.txs = mid.txs) ?_ rfl
    intro b ip b' _ hstep hb
    rwa [(ok_consumeInputV0 hstep).2]
  have hfees : done.fees = mid.fees + (raw.inputs.val.map fun ip => ip.spend.fee).sum := by
    refine hconsumed.gains (fun acc => acc.2.fees) (fun ip => ip.spend.fee) ?_
    intro b ip b' _ hstep
    rw [(ok_consumeInputV0 hstep).2]
  exact {
    notes_eq := by
      rw [outputNotes, h.new]
      rfl
    mem_names := mem_names_iff h.valid
    added := h.added
    removed := by
      rw [h.balance_eq]
      exact removes_of_consumeInputsV0 hconsumed
    height_eq := by rw [h.height_eq, hheight, Adds.frame_run h.added]
    fees_eq := by
      rw [h.fees_eq, hfees, Adds.frame_run h.added]
      rfl
    txs_eq := by
      obtain ⟨size, heq⟩ := h.txs_eq
      rw [htxs, Adds.frame_run h.added] at heq
      exact ⟨.v0 raw size ops, rfl, heq⟩ }

/-- The same for version 1, whose outputs are a set. -/
theorem moves_of_acceptedV1 {form mid done form' : TxAcc} {raw : V1.RawTx} {outs : V1.Outputs}
    (h : AcceptedV1 form raw outs mid done form') :
    Moves form (.v1 raw) (outs.tap.map V1.Output.note) raw.spends.key.tap mid form' where
  notes_eq := by
    rw [outputNotes, h.new]
    rfl
  mem_names nam := ZSet.mem_tap
  added := h.added
  removed := by
    rw [h.balance_eq]
    exact removes_of_consumeInputsV1 h.consumed
  height_eq := by rw [h.height_eq, frame_consumeInputsV1 h.consumed, Adds.frame_run h.added]
  fees_eq := by
    rw [h.fees_eq, frame_consumeInputsV1 h.consumed, Adds.frame_run h.added]
    rfl
  txs_eq := by
    obtain ⟨tx, rfl, heq⟩ := h.txs_eq
    rw [frame_consumeInputsV1 h.consumed, Adds.frame_run h.added] at heq
    exact ⟨.v1 tx, rfl, heq⟩

variable {bc : BlockchainConstants}

theorem moves_of_process {f f' : TxAcc} {raw : RawTx}
    (h : process bc f raw = .ok f') : ∃ notes names mid, Moves f raw notes names mid f' := by
  cases accepted_of_process h with
  | v0 _ hacc => exact ⟨_, _, _, moves_of_acceptedV0 hacc⟩
  | v1 _ hacc => exact ⟨_, _, _, moves_of_acceptedV1 hacc⟩

/-! ### Reading the inputs and the outputs only -/

/-- A balance that has the same notes as another under the names in `I`, and is free under those
in `O` where the other is. -/
structure Follows (I O : Set Nname) (b c : Balance) : Prop where
  ins : ∀ nam ∈ I, c.get nam = b.get nam
  outs : ∀ nam ∈ O, b.get nam = none → c.get nam = none

namespace Follows

variable {I O : Set Nname} {b c : Balance}

omit [Cheetah]

theorem put (h : Follows I O b c) (nam : Nname) (note : Nnote) :
    Follows I O (b.put nam note) (c.put nam note) where
  ins k hk := by rw [get_put, get_put, h.ins k hk]
  outs k hk hnone := by
    rw [get_put] at hnone ⊢
    split at hnone
    · cases hnone
    · rename_i hne
      rw [if_neg hne]
      exact h.outs k hk hnone

theorem del (h : Follows I O b c) (nam : Nname) : Follows I O (b.del nam) (c.del nam) where
  ins k hk := by rw [get_del, get_del, h.ins k hk]
  outs k hk hnone := by
    rw [get_del] at hnone ⊢
    split
    · rfl
    · rename_i hne
      rw [if_neg hne] at hnone
      exact h.outs k hk hnone

end Follows

section Progress

variable {I O : Set Nname} {f g : TxAcc}

variable {f' : TxAcc}

omit [Cheetah] in
theorem exists_addOutputV0 {op : V0.Output} (h : Ok (addOutputV0 f op) f')
    (hop : op.note.name ∈ O) (hfg : Follows I O f.balance g.balance) :
    ∃ g', Ok (addOutputV0 g op) g' ∧ Follows I O f'.balance g'.balance := by
  obtain ⟨hfresh, rfl⟩ := adds_of_addOutputV0 h
  refine ⟨{ g with balance := g.balance.put op.note.name (.v0 op.note) }, ?_, hfg.put _ _⟩
  simp only [addOutputV0, ok_bind, ok_require, ok_pure, Bool.not_eq_true', has_eq_false]
  exact ⟨(), hfg.outs _ hop hfresh, trivial⟩

omit [Cheetah] in
theorem exists_addOutputV1 {op : V1.Output} (h : Ok (addOutputV1 f op) f')
    (hop : op.note.name ∈ O) (hfg : Follows I O f.balance g.balance) :
    ∃ g', Ok (addOutputV1 g op) g' ∧ Follows I O f'.balance g'.balance := by
  obtain ⟨hfresh, rfl⟩ := adds_of_addOutputV1 h
  refine ⟨{ g with balance := g.balance.put op.note.name op.note }, ?_, hfg.put _ _⟩
  unfold addOutputV1 at h ⊢
  cases hnote : op.note with
  | v0 note => simp [hnote] at h
  | v1 note =>
    rw [hnote] at hfresh hop
    simp only [ok_bind, ok_require, ok_pure, Bool.not_eq_true', has_eq_false]
    exact ⟨(), hfg.outs _ hop hfresh, rfl⟩

omit [Cheetah] in
theorem exists_consumeInputV0 {acc acc' acc1 : TimelockRange × TxAcc} {ip : V0.Input}
    (h : Ok (consumeInputV0 acc ip) acc') (hip : ip.note.name ∈ I)
    (hfg : acc1.1 = acc.1 ∧ Follows I O acc.2.balance acc1.2.balance) :
    ∃ acc1', Ok (consumeInputV0 acc1 ip) acc1' ∧
      acc1'.1 = acc'.1 ∧ Follows I O acc'.2.balance acc1'.2.balance := by
  obtain ⟨tir1, g⟩ := acc1
  obtain ⟨rfl, hfg⟩ := hfg
  obtain ⟨hget, hacc'⟩ := ok_consumeInputV0 h
  refine ⟨(acc'.1, { g with
    balance := g.balance.del ip.note.name, fees := g.fees + ip.spend.fee }), ?_, rfl, ?_⟩
  · simp only [consumeInputV0, ok_bind, ok_require, decide_eq_true_eq, ok_pure] at h ⊢
    obtain ⟨-, -, rfl⟩ := h
    exact ⟨(), (hfg.ins _ hip).trans hget, rfl⟩
  · rw [hacc']
    exact hfg.del _

omit [Cheetah] in
theorem exists_consumeInputV1 (h : Ok (consumeInputV1 f nam) f')
    (hnam : nam ∈ I) (hfg : Follows I O f.balance g.balance) :
    ∃ g', Ok (consumeInputV1 g nam) g' ∧ Follows I O f'.balance g'.balance := by
  obtain ⟨⟨note, hget⟩, rfl⟩ := ok_consumeInputV1 h
  refine ⟨{ g with balance := g.balance.del nam }, ?_, hfg.del _⟩
  simp only [consumeInputV1, ok_bind, ok_require, ok_pure, has_eq_true]
  exact ⟨(), ⟨note, (hfg.ins nam hnam).trans hget⟩, trivial⟩

/-- A transaction of version 0 that is accepted is accepted on a balance that follows. -/
theorem exists_v0ToV0 (h : Ok (v0ToV0 f raw) f') (hheight : g.height = f.height)
    (hfg : Follows (v0 raw).ins ((v0 raw).outs f.height) f.balance g.balance) :
    ∃ g', Ok (v0ToV0 g raw) g' := by
  obtain ⟨ops, mid, done, hacc⟩ := acceptedV0_of_ok h
  have hnotes := (moves_of_acceptedV0 hacc).notes_eq
  simp only [v0ToV0, ok_bind, ok_ofOption, ok_require, ok_pure] at h ⊢
  obtain ⟨tx, htx, valid, hvalid, -, rfl, mid', hmid, ⟨tir, done'⟩, hdone, -, htir, size, hsize, -⟩
    := h
  have htx' := htx
  simp only [V0.Tx.new, bind_eq_some, pure_eq_some] at htx'
  obtain ⟨ops', hops', totalSize, -, rfl⟩ := htx'
  obtain rfl : ops = ops' := Option.mem_unique hacc.new hops'
  have hout : ∀ op ∈ ops.val, op.note.name ∈ (v0 raw).outs f.height := fun op hop =>
    ⟨_, hnotes, .v0 op.note, mem_map.2 ⟨op, hop, rfl⟩, rfl⟩
  have hin : ∀ ip ∈ raw.inputs.val, ip.note.name ∈ (v0 raw).ins := fun ip hip =>
    (mem_names_iff hacc.valid _).1 (mem_map.2 ⟨ip, hip, rfl⟩)
  obtain ⟨gmid, hgmid, hfollow⟩ := (run_of_foldlM hmid).simulate
    (fun f g => Follows (v0 raw).ins _ f.balance g.balance)
    (fun b op b' c hop hstep hbc => exists_addOutputV0 hstep (hout op hop) hbc) hfg
  -- The timelocks that the inputs collect do not depend on the balance.
  obtain ⟨⟨gtir, gdone⟩, hgdone, htir', -⟩ := (run_of_foldlM hdone).simulate
    (fun acc acc' => acc'.1 = acc.1 ∧ Follows (v0 raw).ins _ acc.2.balance acc'.2.balance)
    (fun b ip b' c hip hstep hbc => exists_consumeInputV0 hstep (hin ip hip) hbc)
    (c := (.unbounded, gmid)) ⟨rfl, hfollow⟩
  obtain rfl : gtir = tir := htir'
  rw [hheight]
  exact ⟨_, _, htx, _, hvalid, (), rfl, gmid, foldlM_of_run hgmid, (gtir, gdone),
    foldlM_of_run hgdone, (), htir, size, hsize, rfl⟩

theorem validateSpendWithContext_congr {b c : Balance} {pageNum maxSize : Nat}
    (h : c.get nam = b.get nam) (sp : V1.Spend) :
    V1.Spends.validateSpendWithContext c pageNum maxSize nam sp
      = V1.Spends.validateSpendWithContext b pageNum maxSize nam sp := by
  unfold V1.Spends.validateSpendWithContext
  rw [h]

/-- The same of version 1. -/
theorem exists_v1ToV1 {raw : V1.RawTx} (h : Ok (v1ToV1 bc f raw) f') (hheight : g.height = f.height)
    (hfg : Follows (v1 raw).ins ((v1 raw).outs f.height) f.balance g.balance) :
    ∃ g', Ok (v1ToV1 bc g raw) g' := by
  obtain ⟨outs, mid, done, hacc⟩ := acceptedV1_of_ok h
  have hnotes := (moves_of_acceptedV1 hacc).notes_eq
  simp only [v1ToV1, ok_bind, ok_ofOption, ok_require, ok_pure] at h ⊢
  obtain ⟨tx, htx, valid, hvalid, -, rfl, _, hctx, -, hfee, mid', hmid, done', hdone, size, hsize,
    id, hid, -⟩ := h
  have htx' := htx
  simp only [V1.Tx.new, bind_eq_some, pure_eq_some] at htx'
  obtain ⟨outs', houts', totalSize, -, rfl⟩ := htx'
  obtain rfl : outs = outs' := Option.mem_unique hacc.new houts'
  have hout : ∀ op ∈ outs.tap, op.note.name ∈ (v1 raw).outs f.height := fun op hop =>
    ⟨_, hnotes, op.note, mem_map.2 ⟨op, hop, rfl⟩, rfl⟩
  have hctx' :
      Ok (V1.Spends.validateWithContext g.balance raw.spends f.height bc.dataMaxSize) () := by
    refine ok_forM.2 ?_
    rintro ⟨nam, sp⟩ hmem
    have hnam : nam ∈ (v1 raw).ins := mem_key.2 ⟨sp, mem_tap.1 hmem⟩
    show Ok (V1.Spends.validateSpendWithContext g.balance _ _ nam sp) ()
    rw [validateSpendWithContext_congr (hfg.ins nam hnam)]
    exact ok_forM.1 hctx (nam, sp) hmem
  obtain ⟨gmid, hgmid, hfollow⟩ := (run_of_foldlM hmid).simulate
    (fun f g => Follows (v1 raw).ins _ f.balance g.balance)
    (fun b op b' c hop hstep hbc => exists_addOutputV1 hstep (hout op hop) hbc) hfg
  obtain ⟨gdone, hgdone, -⟩ := (run_of_foldlM hdone).simulate
    (fun f g => Follows (v1 raw).ins _ f.balance g.balance)
    (fun b nam b' c hnam hstep hbc => exists_consumeInputV1 hstep (ZSet.mem_tap.1 hnam) hbc) hfollow
  rw [hheight]
  exact ⟨_, _, htx, _, hvalid, (), rfl, (), hctx', (), hfee, gmid, foldlM_of_run hgmid, gdone,
    foldlM_of_run hgdone, size, hsize, id, hid, rfl⟩

/-- A transaction is accepted from any balance that agrees on what it reads. -/
theorem exists_process {raw : RawTx} (h : process bc f raw = .ok f') (hheight : g.height = f.height)
    (hfg : Follows raw.ins (raw.outs f.height) f.balance g.balance) :
    ∃ g', process bc g raw = .ok g' := by
  simp only [process_eq_ok] at h ⊢
  cases raw with
  | v0 raw =>
    simp only [dispatch, hheight] at h ⊢
    split at h
    · simp at h
    · rename_i hphase
      rw [if_neg hphase]
      exact exists_v0ToV0 h hheight hfg
  | v1 raw =>
    simp only [dispatch, hheight] at h ⊢
    split at h
    · simp at h
    · rename_i hphase
      rw [if_neg hphase]
      exact exists_v1ToV1 h hheight hfg

end Progress

/-! ### The machine -/

theorem moves_of_mem_outs {height : Nat} {f f' : TxAcc} {raw : RawTx} (hf : f.height = height)
    (h : process bc f raw = .ok f') (hout : nam ∈ raw.outs height) : ∃ notes names mid note,
      Moves f raw notes names mid f' ∧ raw.outputNotes height = some notes ∧ note ∈ notes ∧
      note.name = nam := by
  obtain ⟨notes, names, mid, hmoves⟩ := moves_of_process h
  obtain ⟨notes', hnotes', note, hmem, hname⟩ := hout
  obtain rfl : notes = notes' := Option.mem_unique (hf ▸ hmoves.notes_eq) hnotes'
  exact ⟨notes, names, mid, note, hmoves, hnotes', hmem, hname⟩

/-- A created name has the note that the transaction builds for it. -/
theorem get_created {height : Nat} {f f' : TxAcc} {raw : RawTx}
    (hf : f.height = height) (h : process bc f raw = .ok f')
    (hout : nam ∈ raw.outs height) (hin : nam ∉ raw.ins) :
    f'.balance.get nam = raw.noteAt height nam := by
  obtain ⟨notes, names, mid, note, hmoves, hnotes', hmem, rfl⟩ := moves_of_mem_outs hf h hout
  rw [Removes.get_run hmoves.removed, if_neg fun hmem => hin ((hmoves.mem_names _).1 hmem),
    noteAt, hnotes', Option.bind_some, Adds.get_of_mem_run hmoves.added hmem]
  -- no other note of the transaction has the name
  have hfound : (notes.find? fun n => n.name = note.name).isSome := by
    rw [find?_isSome]
    exact ⟨note, hmem, decide_eq_true rfl⟩
  obtain ⟨found, hfind⟩ := Option.isSome_iff_exists.1 hfound
  have hname : found.name = note.name := by simpa using find?_some hfind
  have hget := Adds.get_of_mem_run hmoves.added (mem_of_find?_eq_some hfind)
  rw [hname, Adds.get_of_mem_run hmoves.added hmem] at hget
  rw [hfind, hget]

/-- `process:tx-acc` is a machine of transfers between the accumulators of one height. -/
theorem transfer_process (bc : BlockchainConstants) (height : Nat) :
    Transfer (fun f : TxAcc => f.balance.get) (fun f => f.height = height)
      (fun f raw f' => process bc f raw = .ok f') ins (outs height) where
  keep hf h := by
    obtain ⟨_, _, _, hmoves⟩ := moves_of_process h
    exact hmoves.height_eq.trans hf
  present hf h hin hout := by
    obtain ⟨notes, names, mid, hmoves⟩ := moves_of_process h
    obtain ⟨note, hnote⟩ := Removes.exists_get_of_run hmoves.removed ((hmoves.mem_names _).2 hin)
    rcases Adds.get_run hmoves.added hnote with hget | ⟨hmem, hnam⟩
    · rw [hget]
      exact Option.some_ne_none note
    · exact absurd ⟨notes, hf ▸ hmoves.notes_eq, note, hmem, hnam.symm⟩ hout
  fresh hf h hout := by
    obtain ⟨notes, names, mid, note, hmoves, hnotes', hmem, rfl⟩ := moves_of_mem_outs hf h hout
    exact Adds.fresh_of_run hmoves.added hmem
  consumed hf h hin := by
    obtain ⟨notes, names, mid, hmoves⟩ := moves_of_process h
    rw [Removes.get_run hmoves.removed, if_pos ((hmoves.mem_names _).2 hin)]
  created hf h hout hin := by
    obtain ⟨notes, names, mid, note, hmoves, hnotes', hmem, rfl⟩ := moves_of_mem_outs hf h hout
    rw [Removes.get_run hmoves.removed, if_neg fun hmem => hin ((hmoves.mem_names _).1 hmem),
      Adds.get_of_mem_run hmoves.added hmem]
    exact Option.some_ne_none note
  frame hf h hin hout := by
    obtain ⟨notes, names, mid, hmoves⟩ := moves_of_process h
    rw [Removes.get_run hmoves.removed, if_neg fun hmem => hin ((hmoves.mem_names _).1 hmem)]
    refine Adds.get_eq_of_run hmoves.added fun note hmem hnam => hout ?_
    exact ⟨notes, hf ▸ hmoves.notes_eq, note, hmem, hnam⟩
  congr hf hg h hins houts := by
    refine exists_process h (hg.trans hf.symm) ⟨hins, fun nam hnam _ => houts nam ?_⟩
    exact hf ▸ hnam

end TxAcc

end Nockchain.TxEngine
