import Nockchain.Proofs.TxEngine.Identity
import Nockchain.Proofs.TxEngine.Conservation
import Nockchain.Consensus.State

/-!
# `Nockchain.Proofs.Consensus.Coinbase`: the coinbase notes of a page

`accept-page` makes one note for each part of the coinbase split. Whatever the
version, the notes hold what the split says, their names have the parent of the
page as their source, and the names of different parts differ.
-/

set_option autoImplicit false

/-!
## Where the names of notes come from

The last half of a name commits to the source of its note: the hash of the seeds
of an output, or the parent of the page whose coinbase it is. The two versions
hash different things around the source, but both commit to it, so that a name
has one source (`FromSource.unique`). A transaction enters notes whose sources
are outputs only (`source_of_process`), which keeps the names of coinbases free.
-/

namespace Nockchain.TxEngine

open Lib Reason

variable [Tip5]

/-- The last half of a name is made from a source, as in one of the two versions. -/
def Nname.FromSource (nam : Nname) (source : Source) : Prop :=
  (∃ timelock, V0.nnameLast source timelock = some nam.last) ∨ V1.nnameLast source = some nam.last

variable {nam : Nname}

namespace Nname.FromSource

variable {source : Source}

theorem of_v0 {owners : Sig} {timelock : Option TimelockIntent}
    (h : V0.newNname owners source timelock = some nam) : nam.FromSource source := by
  simp only [V0.newNname, bind_eq_some, pure_eq_some] at h
  obtain ⟨first, -, last, hlast, rfl⟩ := h
  exact .inl ⟨timelock, hlast⟩

theorem of_v1 {lock : Digest} (h : V1.newNname lock source = some nam) : nam.FromSource source := by
  simp only [V1.newNname, bind_eq_some, pure_eq_some] at h
  obtain ⟨first, -, last, hlast, rfl⟩ := h
  exact .inr hlast

/-- Both versions hash the source next to what follows it. -/
theorem exists_hash (h : nam.FromSource source) :
    ∃ rest, hashHashable (.pair (leafOf true) (.pair source.hashable rest)) = some nam.last := by
  rcases h with ⟨timelock, h⟩ | h <;> exact ⟨_, h⟩

theorem unique (cf : CollisionFree) {s s' : Source} (h : nam.FromSource s)
    (h' : nam.FromSource s') : s = s' := by
  obtain ⟨rest, hhash⟩ := h.exists_hash
  obtain ⟨rest', hhash'⟩ := h'.exists_hash
  have hsame := Same.of_eq hhash hhash'
  exact binds_source cf s s' ((hsame.pair cf).2.pair cf).1

end Nname.FromSource

/-! ### The outputs of a transaction -/

namespace V0

theorem Output.birth_source {n : Nat} {child out : Output} (h : Output.birth n child = some out) :
    ∃ p, out.note.name.FromSource ⟨p, false⟩ := by
  simp only [Output.birth, Output.computeSource, bind_eq_some, pure_eq_some] at h
  obtain ⟨_, ⟨p, -, rfl⟩, chi, hchi, name, hname, rfl⟩ := h
  have hsource : chi.note.source = ⟨p, false⟩ :=
    (Run.of_foldlM hchi).invariant (fun chi => chi.note.source = ⟨p, false⟩)
      (fun a seed b _ hseed ha => (Outputs.Output.frame_birthSeed hseed).2.trans ha) rfl
  rw [hsource] at hname
  exact ⟨p, .of_v0 hname⟩

theorem Outputs.source_of_new {ips : Inputs} {n : Nat} {ops : Outputs} (h : new ips n = some ops) :
    ∀ op ∈ ops.val, ∃ p, op.note.name.FromSource ⟨p, false⟩ := by
  intro op hop
  simp only [new, bind_eq_some] at h
  obtain ⟨-, -, children, -, hbirth⟩ := h
  obtain ⟨loc, hget⟩ := ZMap.mem_val.1 hop
  rw [ZMap.get_runM hbirth, Option.bind_eq_some_iff] at hget
  obtain ⟨child, -, hchild⟩ := hget
  exact Output.birth_source hchild

end V0

namespace TxAcc

variable [Cheetah]

/-- A note that an accepted transaction leaves in the balance was there before, or is an output. -/
theorem source_of_process {bc : BlockchainConstants} {form form' : TxAcc} {raw : RawTx}
    (h : process bc form raw = .ok form') {note : Nnote}
    (hget : form'.balance.get nam = some note) :
    form.balance.get nam = some note ∨ ∃ p, nam.FromSource ⟨p, false⟩ := by
  cases accepted_of_process h with
  | @v0 raw ops mid done _ _ hacc =>
    rw [hacc.balance_eq] at hget
    obtain ⟨tir, hconsumed⟩ := hacc.consumed
    have hmid := Removes.get_of_run (removes_of_consumeInputsV0 hconsumed) hget
    rcases Adds.get_run hacc.added hmid with hform | ⟨hnote, rfl⟩
    · exact .inl hform
    · obtain ⟨op, hop, rfl⟩ := List.mem_map.1 hnote
      exact .inr (V0.Outputs.source_of_new hacc.new op hop)
  | @v1 raw outs mid done _ _ hacc =>
    rw [hacc.balance_eq] at hget
    have hmid := Removes.get_of_run (removes_of_consumeInputsV1 hacc.consumed) hget
    rcases Adds.get_run hacc.added hmid with hform | ⟨hnote, rfl⟩
    · exact .inl hform
    obtain ⟨out, hout, rfl⟩ := List.mem_map.1 hnote
    obtain ⟨root, hchild⟩ := (V1.Tx.buildOutputs_spec hacc.new).2 out (ZSet.mem_tap.1 hout)
    obtain ⟨note, src, hnote, hname⟩ := hchild.note
    rw [hnote]
    exact .inr ⟨src, .of_v1 hname⟩

end TxAcc

end Nockchain.TxEngine

namespace Nockchain.Consensus

open Lib TxEngine

variable [Tip5]

/-- Coinbase notes for a split, made by one gate from its keys. -/
structure Coinbases (parent : Digest) (coins : List Nat) (notes : List Nnote) : Prop where
  assets : notes.map V1.Nnote.assets = coins
  source : ∀ note ∈ notes, note.name.FromSource ⟨parent, true⟩
  nodup : (notes.map V1.Nnote.name).Nodup

/-- A gate that makes a note of the coins under a key. -/
theorem assets_of_mapM {κ : Type} [ToNoun κ] [DecidableEq κ] {split : ZMap κ Nat}
    {f : κ → Option Nnote} {notes : List Nnote} (h : split.key.tap.mapM f = some notes)
    (hf : ∀ k note, f k = some note → split.get k = some note.assets) :
    notes.map V1.Nnote.assets = split.val := by
  have hval : split.val = split.key.tap.map fun k => split.gut k 0 := by
    rw [ZMap.val_eq, ZMap.tap_key, List.map_map]
    refine List.map_congr_left fun x hx => ?_
    simp [ZMap.gut, ZMap.mem_tap.1 hx]
  rw [hval, ← List.forall₂_eq_eq_eq, List.forall₂_map_left_iff, List.forall₂_map_right_iff]
  refine (forall₂_of_mapM h).flip.imp fun note k hk => ?_
  rw [ZMap.gut, hf k note hk]
  rfl

/-- A gate whose names the keys determine. -/
theorem Coinbases.of_mapM {κ : Type} [ToNoun κ] [DecidableEq κ] {parent : Digest}
    {split : ZMap κ Nat} {f : κ → Option Nnote} {notes : List Nnote}
    (h : split.key.tap.mapM f = some notes) (hf : ∀ k note, f k = some note →
      split.get k = some note.assets ∧ note.name.FromSource ⟨parent, true⟩)
    (hinj : ∀ k note k' note', f k = some note → f k' = some note' → note.name = note'.name →
      k = k') : Coinbases parent split.val notes := by
  have hrel := forall₂_of_mapM h
  refine ⟨assets_of_mapM h fun k note hk => (hf k note hk).1, ?_,
    nodup_map_of_forall₂ hrel hinj split.key.nodup_tap⟩
  intro note hnote
  obtain ⟨k, -, hk⟩ := exists_of_mem_forall₂ hrel hnote
  exact (hf k note hk).2

variable {bc : BlockchainConstants}

theorem coinbase_newV0_spec {pag : Page} {split : ZMap Sig Nat}
    {lok : Sig} {note : Nnote} (h : Coinbase.newV0 bc pag split lok = some note) :
    split.get lok = some note.assets ∧
      V0.newNname lok ⟨pag.parent, true⟩ (Coinbase.timelock bc pag.height) = some note.name := by
  simp only [Coinbase.newV0, bind_eq_some, pure_eq_some] at h
  obtain ⟨reward, hreward, name, hname, -, -, rfl⟩ := h
  exact ⟨hreward, hname⟩

theorem coinbase_newV1_spec {pag : Page} {split : ZMap Digest Nat}
    {h : Digest} {note : Nnote} (hnew : Coinbase.newV1 bc pag split (ZSet.put ∅ h) = some note) :
    split.get h = some note.assets ∧
      Coinbase.makeName bc (ZSet.put ∅ h) pag.parent = some note.name := by
  have htap : (ZSet.put ∅ h).tap = [h] := rfl
  simp only [Coinbase.newV1, htap, List.foldlM_cons, List.foldlM_nil, bind_eq_some, pure_eq_some,
    Nat.zero_add] at hnew
  obtain ⟨_, ⟨_, ⟨reward, hreward, rfl⟩, rfl⟩, name, hname, rfl⟩ := hnew
  exact ⟨hreward, hname⟩

theorem assets_coinbases {pag : Page} {notes : List Nnote}
    (h : State.coinbases bc pag = some notes) :
    notes.map V1.Nnote.assets = pag.coinbase.coins := by
  unfold State.coinbases at h
  cases hsplit : pag.coinbase with
  | v0 split =>
    simp only [hsplit, bind_eq_some] at h
    obtain ⟨-, -, h⟩ := h
    exact assets_of_mapM h fun k note hk => (coinbase_newV0_spec hk).1
  | v1 split =>
    simp only [hsplit, bind_eq_some] at h
    obtain ⟨-, -, h⟩ := h
    exact assets_of_mapM h fun k note hk => (coinbase_newV1_spec hk).1

/-- The name of a version 0 coinbase determines its lock. -/
theorem newNname_owners (cf : CollisionFree) {lok lok' : Sig} {source source' : Source}
    {tl tl' : Option TimelockIntent} {nam : Nname} (h : V0.newNname lok source tl = some nam)
    (h' : V0.newNname lok' source' tl' = some nam) : lok = lok' := by
  simp only [V0.newNname, bind_eq_some, pure_eq_some] at h h'
  obtain ⟨first, hfirst, last, -, rfl⟩ := h
  obtain ⟨_, hfirst', _, -, heq⟩ := h'
  cases heq
  have hsame := (Same.of_eq hfirst hfirst').pair cf
  exact binds_sig cf _ _ (((hsame.2.pair cf).2).pair cf).1

/-- The name of a version 1 coinbase determines the hash of the key. -/
theorem makeName_hash (cf : CollisionFree) {h h' parent : Digest}
    {nam : Nname} (hn : Coinbase.makeName bc (ZSet.put ∅ h) parent = some nam)
    (hn' : Coinbase.makeName bc (ZSet.put ∅ h') parent = some nam) : h = h' := by
  simp only [Coinbase.makeName, V1.newNname, bind_eq_some, pure_eq_some] at hn hn'
  obtain ⟨root, hroot, first, hfirst, last, -, rfl⟩ := hn
  obtain ⟨root', hroot', _, hfirst', _, -, heq⟩ := hn'
  cases heq
  obtain rfl : root = root' := ((Same.of_eq hfirst hfirst').pair cf).2.hash
  have hcond := V1.binds_spendCondition cf _ _ (Same.of_eq hroot hroot')
  simp only [List.cons.injEq, V1.LockPrimitive.pkh.injEq, V1.Pkh.mk.injEq] at hcond
  have hmem : h ∈ ZSet.put ∅ h' := hcond.1.2 ▸ ZSet.mem_put.2 (.inl rfl)
  simpa using hmem

/-- The coinbase notes of a page. -/
theorem coinbases_spec (cf : CollisionFree) {pag : Page}
    {notes : List Nnote} (h : State.coinbases bc pag = some notes) :
    Coinbases pag.parent pag.coinbase.coins notes := by
  unfold State.coinbases at h
  cases hsplit : pag.coinbase with
  | v0 split =>
    simp only [hsplit, bind_eq_some] at h
    obtain ⟨-, -, h⟩ := h
    refine Coinbases.of_mapM h (fun k note hk => ?_) fun k note k' note' hk hk' hname => ?_
    · have hspec := coinbase_newV0_spec hk
      exact ⟨hspec.1, .of_v0 hspec.2⟩
    · exact newNname_owners cf (coinbase_newV0_spec hk).2 (hname ▸ (coinbase_newV0_spec hk').2)
  | v1 split =>
    simp only [hsplit, bind_eq_some] at h
    obtain ⟨-, -, h⟩ := h
    refine Coinbases.of_mapM h (fun k note hk => ?_) fun k note k' note' hk hk' hname => ?_
    · have hspec := coinbase_newV1_spec hk
      have hname := hspec.2
      simp only [Coinbase.makeName, bind_eq_some] at hname
      obtain ⟨root, -, hname⟩ := hname
      exact ⟨hspec.1, .of_v1 hname⟩
    · exact makeName_hash cf (coinbase_newV1_spec hk).2 (hname ▸ (coinbase_newV1_spec hk').2)

end Nockchain.Consensus
