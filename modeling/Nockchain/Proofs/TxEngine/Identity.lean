import Nockchain.Proofs.TxEngine.Authorised

/-!
# `Nockchain.Proofs.TxEngine.Identity`: what the id of a transaction commits to

The id of a version 1 transaction is the hash of its spends, and the hashables
of two types leave a field out: `hashable:seed` the output source and
`hashable:lock-merkle-proof` the axis, in whose place there is a constant. All
else is bound. A signature covers the output sources too, so that they can
differ in a spend without signatures only. Two valid transactions with one id
are therefore equal exactly when they agree on the axes and on those output
sources (`V1.RawTx.eq_iff_agree`).
-/

set_option autoImplicit false

namespace Nockchain.TxEngine

open Lib

/-!
## What the hashables commit to

Under a hash without collisions, two hashables with the same hash have the same
shape down to their leaves (`Same.pair`, `Same.leaf`). A type is bound by its
hashable (`Binds`) when equal hashes give equal values; the combinators that the
hashables are written with keep that, so binding is proved once for each of them
and then read off for the types of the engine.
-/

section

variable [Tip5]

/-! ### Hashables with the same hash -/

/-- Two hashables hash without a crash, to the same digest. -/
def Same (h k : Hashable) : Prop := ∃ d, hashHashable h = some d ∧ hashHashable k = some d

variable {h k : Hashable}

namespace Same

theorem of_eq {d : Digest} (hh : hashHashable h = some d)
    (hk : hashHashable k = some d) : Same h k := ⟨d, hh, hk⟩

theorem symm (hs : Same h k) : Same k h := by
  obtain ⟨d, hd, hd'⟩ := hs
  exact ⟨d, hd', hd⟩

theorem hash {d e : Digest} (h : Same (.hash d) (.hash e)) : d = e := by
  obtain ⟨_, ⟨rfl⟩, ⟨rfl⟩⟩ := h
  rfl

end Same

theorem hashHashable_pair {d : Digest} : hashHashable (.pair h k) = some d ↔
      ∃ a b, hashHashable h = some a ∧ hashHashable k = some b ∧ Tip5.sponge10 a b = d := by
  simp only [hashHashable, hashTenCell, bind_eq_some, pure_eq_some]
  constructor
  · rintro ⟨a, ha, b, hb, hd⟩
    exact ⟨a, b, ha, hb, hd⟩
  · rintro ⟨a, b, ha, hb, hd⟩
    exact ⟨a, ha, b, hb, hd⟩

theorem hashHashable_leaf {n : Noun} {d : Digest} :
    hashHashable (.leaf n) = some d ↔ basedNoun n ∧ Tip5.sponge n = d := by
  simp [hashHashable, hashNounVarlen]

variable {α : Type}

variable {f : α → Hashable}

section Collisions

variable (cf : CollisionFree)
include cf

theorem Same.pair {h' k' : Hashable} (hs : Same (.pair h k) (.pair h' k')) :
    Same h h' ∧ Same k k' := by
  obtain ⟨d, hd, hd'⟩ := hs
  obtain ⟨a, b, ha, hb, rfl⟩ := hashHashable_pair.1 hd
  obtain ⟨a', b', ha', hb', heq⟩ := hashHashable_pair.1 hd'
  obtain ⟨rfl, rfl⟩ := cf.sponge10_inj _ _ _ _ heq
  exact ⟨⟨_, ha, ha'⟩, _, hb, hb'⟩

theorem Same.leaf {m n : Noun} (hs : Same (.leaf m) (.leaf n)) : m = n := by
  obtain ⟨d, hd, hd'⟩ := hs
  obtain ⟨hm, rfl⟩ := hashHashable_leaf.1 hd
  obtain ⟨hn, heq⟩ := hashHashable_leaf.1 hd'
  exact cf.sponge_inj m n hm hn heq.symm

theorem not_same_leaf_pair {n : Noun} : ¬ Same (.leaf n) (.pair h k) := by
  rintro ⟨d, hd, hd'⟩
  obtain ⟨hn, rfl⟩ := hashHashable_leaf.1 hd
  obtain ⟨a, b, -, -, heq⟩ := hashHashable_pair.1 hd'
  exact cf.sponge_ne_sponge10 n a b hn heq.symm

/-! ### Containers -/

theorem Same.leafOf [ToNoun α] {x y : α} (hs : Same (leafOf x) (leafOf y)) : x = y :=
  toNoun_inj.1 (hs.leaf cf)

/-- Trees with the same hash have the same shape, and elements with the same hashes. -/
theorem Same.tree {t t' : Lib.Tree α} (hs : Same (treeHashable f t) (treeHashable f t')) :
    Tree.Rel (fun x y => Same (f x) (f y)) t t' := by
  induction t generalizing t' with
  | nil =>
    cases t' with
    | nil => exact .nil
    | node m l' r' => exact absurd hs (not_same_leaf_pair cf)
  | node n l r ihl ihr =>
    cases t' with
    | nil => exact absurd hs.symm (not_same_leaf_pair cf)
    | node m l' r' =>
      obtain ⟨hn, hlr⟩ := hs.pair cf
      obtain ⟨hl, hr⟩ := hlr.pair cf
      exact .node hn (ihl hl) (ihr hr)

theorem Same.unit {u v : Option α}
    (hs : Same (unitHashable f u) (unitHashable f v)) :
    Option.Rel (fun x y => Same (f x) (f y)) u v := by
  cases u with
  | none =>
    cases v with
    | none => exact .none
    | some y => exact absurd hs (not_same_leaf_pair cf)
  | some x =>
    cases v with
    | none => exact absurd hs.symm (not_same_leaf_pair cf)
    | some y => exact .some (hs.pair cf).2

end Collisions

/-! ### Types that their hashables bind -/

/-- Values with the same hash are equal. -/
def Binds {α : Type} (f : α → Hashable) : Prop := ∀ x y, Same (f x) (f y) → x = y

namespace Binds

variable (cf : CollisionFree)
include cf

theorem leafOf [ToNoun α] : Binds (leafOf : α → Hashable) :=
  fun _ _ hs => hs.leafOf cf

theorem tree (hf : Binds f) : Binds (treeHashable f) := by
  intro t t' hs
  exact Tree.eq_of_rel ((hs.tree cf).mono hf)

theorem unit (hf : Binds f) : Binds (unitHashable f) := by
  intro u v hs
  cases hs.unit cf with
  | none => rfl
  | some h => rw [hf _ _ h]

theorem zset {κ : Type} [ToNoun κ] [DecidableEq κ] {f : κ → Hashable} (hf : Binds f) :
    Binds fun s : ZSet κ => treeHashable f s.tree := by
  intro s t hs
  obtain ⟨s, hs'⟩ := s
  obtain ⟨t, ht'⟩ := t
  obtain rfl : s = t := hf.tree cf s t hs
  rfl

theorem zmap {κ ν : Type} [ToNoun κ] [DecidableEq κ] {f : κ × ν → Hashable} (hf : Binds f) :
    Binds fun s : ZMap κ ν => treeHashable f s.tree := by
  intro s t hs
  obtain ⟨s, hs'⟩ := s
  obtain ⟨t, ht'⟩ := t
  obtain rfl : s = t := hf.tree cf s t hs
  rfl

end Binds

/-! ### Sources, timelocks and locks -/

section Types

theorem binds_digest : Binds Hashable.hash := fun _ _ hs => hs.hash

variable (cf : CollisionFree)
include cf

theorem binds_source : Binds Source.hashable := by
  rintro ⟨p, c⟩ ⟨q, d⟩ hs
  obtain ⟨hp, hc⟩ := hs.pair cf
  obtain rfl : p = q := hp.hash
  obtain rfl : c = d := hc.leafOf cf
  rfl

theorem binds_timelockRange : Binds TimelockRange.hashable := by
  rintro ⟨min, max⟩ ⟨min', max'⟩ hs
  obtain ⟨hmin, hmax⟩ := hs.pair cf
  obtain rfl : min = min' := (Binds.leafOf cf).unit cf _ _ hmin
  obtain rfl : max = max' := (Binds.leafOf cf).unit cf _ _ hmax
  rfl

theorem binds_sig : Binds Sig.hashable := by
  rintro ⟨m, keys⟩ ⟨m', keys'⟩ hs
  obtain ⟨hm, hkeys⟩ := hs.pair cf
  obtain rfl : m = m' := hm.leafOf cf
  obtain rfl : keys = keys' := (Binds.leafOf cf).zset cf _ _ hkeys
  rfl

end Types

namespace V1

variable (cf : CollisionFree)
include cf

theorem binds_pkh : Binds Pkh.hashable := by
  rintro ⟨m, h⟩ ⟨m', h'⟩ hs
  obtain ⟨hm, hh⟩ := hs.pair cf
  obtain rfl : m = m' := hm.leafOf cf
  obtain rfl : h = h' := binds_digest.zset cf _ _ hh
  rfl

theorem binds_tim : Binds Tim.hashable := by
  rintro ⟨rel, abs⟩ ⟨rel', abs'⟩ hs
  obtain ⟨hrel, habs⟩ := hs.pair cf
  obtain rfl : rel = rel' := binds_timelockRange cf _ _ hrel
  obtain rfl : abs = abs' := binds_timelockRange cf _ _ habs
  rfl

/-- The tags tell the kinds of primitives apart, and the hash binds the parts of each. -/
theorem binds_lockPrimitive : Binds LockPrimitive.hashable := by
  -- The tag is a leaf of its own, so that primitives of different kinds have different hashes.
  have htag : ∀ {a b : Nat} {h k : Hashable},
      Same (.pair (leafOf a) h) (.pair (leafOf b) k) → a = b ∧ Same h k := by
    intro a b h k hs
    obtain ⟨hab, hhk⟩ := hs.pair cf
    exact ⟨hab.leafOf cf, hhk⟩
  intro x y hs
  cases x with
  | tim t =>
    cases y with
    | tim t' => rw [binds_tim cf t t' (htag hs).2]
    | hax h | pkh p | brn => exact absurd (htag hs).1 (by decide)
  | hax h =>
    cases y with
    | tim t => exact absurd (htag hs).1 (by decide)
    | hax h' => rw [binds_digest.zset cf h h' (htag hs).2]
    | pkh p | brn => exact absurd (htag hs).1 (by decide)
  | pkh p =>
    cases y with
    | tim t | hax h => exact absurd (htag hs).1 (by decide)
    | pkh p' => rw [binds_pkh cf p p' (htag hs).2]
    | brn => exact absurd (htag hs).1 (by decide)
  | brn =>
    cases y with
    | tim t | hax h | pkh p => exact absurd (htag hs).1 (by decide)
    | brn => rfl

theorem binds_spendCondition : Binds SpendCondition.hashable := by
  intro sc sc' hs
  induction sc generalizing sc' with
  | nil =>
    cases sc' with
    | nil => rfl
    | cons p ps => exact absurd hs (not_same_leaf_pair cf)
  | cons p ps ih =>
    cases sc' with
    | nil => exact absurd hs.symm (not_same_leaf_pair cf)
    | cons q qs =>
      obtain ⟨hp, hps⟩ := hs.pair cf
      rw [binds_lockPrimitive cf p q hp, ih qs hps]

end V1

end

section Identity

variable [Tip5]

theorem Binds.pair {α β : Type} {f : α → Hashable} {g : β → Hashable} (cf : CollisionFree)
    (hf : Binds f) (hg : Binds g) : Binds fun x : α × β => .pair (f x.1) (g x.2) := by
  intro x y hs
  obtain ⟨hx, hy⟩ := hs.pair cf
  exact Prod.ext (hf _ _ hx) (hg _ _ hy)

theorem binds_nname (cf : CollisionFree) : Binds Nname.hashable := by
  intro ⟨first, last⟩ ⟨first', last'⟩ hs
  obtain ⟨hfirst, hrest⟩ := hs.pair cf
  obtain ⟨hlast, -⟩ := hrest.pair cf
  obtain rfl : first = first' := hfirst.hash
  obtain rfl : last = last' := hlast.hash
  rfl

theorem binds_signature (cf : CollisionFree) : Binds Signature.hashable :=
  ((Binds.leafOf cf).pair cf (Binds.leafOf cf)).zmap cf

namespace V1

section Bound

variable (cf : CollisionFree)
include cf

/-! ### What is bound -/

theorem binds_hashableNoun : Binds hashableNoun := by
  intro m n hs
  induction m generalizing n with
  | atom a =>
    cases n with
    | atom b => exact hs.leaf cf
    | cell h t => exact absurd hs (not_same_leaf_pair cf)
  | cell h t ihh iht =>
    cases n with
    | atom b => exact absurd hs.symm (not_same_leaf_pair cf)
    | cell h' t' =>
      obtain ⟨hh, ht⟩ := hs.pair cf
      rw [ihh h' hh, iht t' ht]

theorem binds_noteData : Binds NoteData.hashable :=
  ((Binds.leafOf cf).pair cf (binds_hashableNoun cf)).zmap cf

theorem binds_pkhSignature : Binds PkhSignature.hashable :=
  (binds_digest.pair cf ((Binds.leafOf cf).pair cf (Binds.leafOf cf))).zmap cf

theorem binds_hashableHax : Binds Witness.hashableHax :=
  (binds_digest.pair cf (binds_hashableNoun cf)).zmap cf

theorem binds_path : Binds LockMerkleProof.pathHashable := by
  intro path path' hs
  induction path generalizing path' with
  | nil =>
    cases path' with
    | nil => rfl
    | cons d path' => exact absurd hs (not_same_leaf_pair cf)
  | cons d path ih =>
    cases path' with
    | nil => exact absurd hs.symm (not_same_leaf_pair cf)
    | cons d' path' =>
      obtain ⟨hd, hpath⟩ := hs.pair cf
      rw [hd.hash, ih path' hpath]

/-- A lock merkle proof is bound but for its axis. -/
theorem LockMerkleProof.eq_of_same {l l' : LockMerkleProof} (hs : Same l.hashable l'.hashable)
    (haxis : l.axis = l'.axis) : l = l' := by
  obtain ⟨sc, axis, root, path⟩ := l
  obtain ⟨sc', axis', root', path'⟩ := l'
  obtain ⟨hsc, hrest⟩ := hs.pair cf
  obtain ⟨-, hrest⟩ := hrest.pair cf
  obtain ⟨hroot, hpath⟩ := hrest.pair cf
  obtain rfl : sc = sc' := binds_spendCondition cf _ _ hsc
  obtain rfl : root = root' := hroot.hash
  obtain rfl : path = path' := binds_path cf _ _ hpath
  obtain rfl : axis = axis' := haxis
  rfl

/-- So is a witness. -/
theorem Witness.eq_of_same {w w' : Witness} (hs : Same w.hashable w'.hashable)
    (haxis : w.lmp.axis = w'.lmp.axis) : w = w' := by
  obtain ⟨lmp, pkh, hax⟩ := w
  obtain ⟨lmp', pkh', hax'⟩ := w'
  obtain ⟨hlmp, hrest⟩ := hs.pair cf
  obtain ⟨hpkh, hrest⟩ := hrest.pair cf
  obtain ⟨hhax, -⟩ := hrest.pair cf
  obtain rfl : lmp = lmp' := LockMerkleProof.eq_of_same cf hlmp haxis
  obtain rfl : pkh = pkh' := binds_pkhSignature cf _ _ hpkh
  obtain rfl : hax = hax' := binds_hashableHax cf _ _ hhax
  rfl

/-- A seed is bound but for its output source. -/
theorem Seed.eq_of_same {s t : Seed} (hs : Same s.hashable t.hashable)
    (hsource : s.outputSource = t.outputSource) : s = t := by
  obtain ⟨source, root, noteData, gift, parent⟩ := s
  obtain ⟨source', root', noteData', gift', parent'⟩ := t
  obtain ⟨hroot, hrest⟩ := hs.pair cf
  obtain ⟨hdata, hrest⟩ := hrest.pair cf
  obtain ⟨hgift, hparent⟩ := hrest.pair cf
  obtain rfl : root = root' := hroot.hash
  obtain rfl : noteData = noteData' := binds_noteData cf _ _ hdata
  obtain rfl : gift = gift' := hgift.leafOf cf
  obtain rfl : parent = parent' := hparent.hash
  obtain rfl : source = source' := hsource
  rfl

end Bound

/-- The output sources that a spend asks for, in the order of its seeds. -/
def Seeds.sources (s : Seeds) : List (Option Source) := s.tap.map Seed.outputSource

/-- Seeds are bound but for their output sources. -/
theorem Seeds.eq_of_same (cf : CollisionFree) {s t : Seeds} (hs : Same s.hashable t.hashable)
    (hsources : s.sources = t.sources) : s = t :=
  ZSet.eq_of_tap_eq (eq_of_forall₂_of_map_eq (ZSet.forall₂_tap (hs.tree cf)) hsources
    fun _ _ => Seed.eq_of_same cf)

/-- What is signed binds the output sources as well. -/
theorem Seeds.sources_of_sigHash (cf : CollisionFree) {s t : Seeds} {fee fee' : Nat} {d : Digest}
    (h : sigHashOf s fee = some d) (h' : sigHashOf t fee' = some d) : s.sources = t.sources := by
  obtain ⟨hseeds, -⟩ := (Same.of_eq h h').pair cf
  refine map_eq_of_forall₂ (ZSet.forall₂_tap (hseeds.tree cf)) fun x y hxy => ?_
  exact (binds_source cf).unit cf _ _ (hxy.pair cf).1

/-! ### Spends -/

variable {sp sp' : Spend}

namespace Spend

/-- The axis in the witness of a `%1` spend. -/
def axis : Spend → Option Nat
  | .s0 _ => none
  | .s1 s => some s.witness.lmp.axis

/-- The keys that sign a spend, with their signatures. -/
def signers : Spend → List (SchnorrPubkey × SchnorrSignature)
  | .s0 s => s.signature.tap
  | .s1 s => s.witness.pkh.val

/-- Two spends have the same axis and, where no signature covers them, the same output sources. -/
structure Agree (sp sp' : Spend) : Prop where
  axis : sp.axis = sp'.axis
  sources : sp.signers = [] → sp.seeds.sources = sp'.seeds.sources

/-- What two spends with the same hash have in common. -/
inductive Alike : Spend → Spend → Prop where
  | s0 {signature : Signature} {seeds seeds' : Seeds} {fee : Nat}
      (hseeds : Same seeds.hashable seeds'.hashable) :
      Alike (.s0 ⟨signature, seeds, fee⟩) (.s0 ⟨signature, seeds', fee⟩)
  | s1 {w w' : Witness} {seeds seeds' : Seeds} {fee : Nat} (hw : Same w.hashable w'.hashable)
      (hpkh : w.pkh = w'.pkh) (hseeds : Same seeds.hashable seeds'.hashable) :
      Alike (.s1 ⟨w, seeds, fee⟩) (.s1 ⟨w', seeds', fee⟩)

/-- Spends with one hash are alike, by the hashes of their parts. -/
theorem alike_of_same (cf : CollisionFree) (hs : Same sp.hashable sp'.hashable) : Alike sp sp' := by
  cases sp with
  | s0 s =>
    cases sp' with
    | s0 t =>
      obtain ⟨-, hs⟩ := hs.pair cf
      obtain ⟨hsignature, hs⟩ := hs.pair cf
      obtain ⟨hseeds, hfee⟩ := hs.pair cf
      obtain ⟨signature, seeds, fee⟩ := s
      obtain ⟨signature', seeds', fee'⟩ := t
      obtain rfl : signature = signature' := binds_signature cf _ _ hsignature
      obtain rfl : fee = fee' := hfee.leafOf cf
      exact .s0 hseeds
    | s1 t => exact absurd ((hs.pair cf).1.leafOf cf) (by decide)
  | s1 s =>
    cases sp' with
    | s0 t => exact absurd ((hs.pair cf).1.leafOf cf) (by decide)
    | s1 t =>
      obtain ⟨-, hs⟩ := hs.pair cf
      obtain ⟨hw, hs⟩ := hs.pair cf
      obtain ⟨hseeds, hfee⟩ := hs.pair cf
      have hpkh : s.witness.pkh = t.witness.pkh :=
        binds_pkhSignature cf _ _ ((hw.pair cf).2.pair cf).1
      obtain ⟨w, seeds, fee⟩ := s
      obtain ⟨w', seeds', fee'⟩ := t
      obtain rfl : fee = fee' := hfee.leafOf cf
      exact .s1 hw hpkh hseeds

theorem Alike.signers_eq (h : Alike sp sp') : sp.signers = sp'.signers := by
  cases h with
  | s0 _ => rfl
  | s1 _ hpkh _ => rw [signers, signers, hpkh]

/-- Spends with the same hash, axis and output sources are equal. -/
theorem Alike.eq (cf : CollisionFree) (h : Alike sp sp')
    (haxis : sp.axis = sp'.axis) (hsources : sp.seeds.sources = sp'.seeds.sources) : sp = sp' := by
  cases h with
  | s0 hseeds => rw [Seeds.eq_of_same cf hseeds hsources]
  | s1 hw _ hseeds =>
    rw [Witness.eq_of_same cf hw (Option.some.inj haxis), Seeds.eq_of_same cf hseeds hsources]

variable [Cheetah]

/-- The signatures of a spend that verifies are valid for what it signs. -/
theorem valid_of_verifySignatures (h : sp.verifySignatures = some true)
    {pk : SchnorrPubkey} {sg : SchnorrSignature} (hmem : (pk, sg) ∈ sp.signers) :
    ∃ d, sigHashOf sp.seeds sp.fee = some d ∧ verifySignature pk d sg := by
  cases sp with
  | s0 s => exact Spend0.valid_of_verifySignatures h (ZMap.mem_tap.1 hmem)
  | s1 s =>
    simp only [verifySignatures, Spend1.verifySignatures, bind_eq_some, pure_eq_some] at h
    obtain ⟨d, hd, hbatch⟩ := h
    obtain ⟨k, hk⟩ := ZMap.mem_val.1 hmem
    exact ⟨d, hd, s.witness.pkh.valid_of_batchVerify hbatch hk⟩

end Spend

/-- A signature is valid for one digest at most. -/
def SignsOnce [Cheetah] : Prop :=
  ∀ pk sg d d', verifySignature pk d sg = true → verifySignature pk d' sg = true → d = d'

/-- Two valid spends with the same hash are equal when they agree on what it leaves out. -/
theorem Spend.eq_of_agree [Cheetah] (cf : CollisionFree) (once : SignsOnce)
    (hs : Same sp.hashable sp'.hashable) (hv : sp.verifySignatures = some true)
    (hv' : sp'.verifySignatures = some true) (hagree : sp.Agree sp') : sp = sp' := by
  have halike := alike_of_same cf hs
  refine halike.eq cf hagree.axis ?_
  cases hsigners : sp.signers with
  | nil => exact hagree.sources hsigners
  | cons x xs =>
    obtain ⟨pk, sg⟩ := x
    -- One signature that verifies in both spends makes both sign the same digest.
    have hmem : (pk, sg) ∈ sp.signers := by
      rw [hsigners]
      exact (.head _)
    obtain ⟨d, hd, hvalid⟩ := valid_of_verifySignatures hv hmem
    obtain ⟨d', hd', hvalid'⟩ := valid_of_verifySignatures hv' (halike.signers_eq ▸ hmem)
    obtain rfl := once pk sg d d' hvalid hvalid'
    exact Seeds.sources_of_sigHash cf hd hd'

namespace RawTx

/-- Two transactions agree, spend by spend. -/
def Agree (raw raw' : RawTx) : Prop :=
  ∀ nam sp sp', raw.spends.get nam = some sp → raw'.spends.get nam = some sp' → sp.Agree sp'

/-- Two transactions with one id have spends with the same hashes, under the same names. -/
theorem rel_spends (cf : CollisionFree) {raw raw' : RawTx} {d : Digest}
    (h : raw.computeId = some d) (h' : raw'.computeId = some d) (nam : Nname) :
    Option.Rel (fun sp sp' => Same (Spend.hashable sp) (Spend.hashable sp'))
      (raw.spends.get nam) (raw'.spends.get nam) := by
  obtain ⟨-, hspends⟩ := (Same.of_eq h h').pair cf
  refine ZMap.rel_get ((hspends.tree cf).mono fun x y hxy => ?_) nam
  obtain ⟨hnam, hsp⟩ := hxy.pair cf
  exact ⟨binds_nname cf _ _ hnam, hsp⟩

variable [Cheetah]

theorem verifySignatures_of_validate {raw : RawTx} (h : raw.validate = some true) {nam : Nname}
    (hget : raw.spends.get nam = some sp) : sp.verifySignatures = some true := by
  obtain ⟨-, -, hspends⟩ := RawTx.validate_eq_true h
  obtain ⟨-, hverified, -⟩ := Spends.validate_eq_true hspends
  rw [Spends.verifySignatures, allM_eq_some_true] at hverified
  exact hverified (nam, sp) (ZMap.mem_tap.2 hget)

/-- Two valid transactions with one id are equal exactly when they agree on the axes of their lock
merkle proofs and on the output sources of their spends without signatures. -/
theorem eq_iff_agree (cf : CollisionFree) (once : SignsOnce) {raw raw' : RawTx}
    (h : raw.validate = some true) (h' : raw'.validate = some true) (hid : raw.id = raw'.id) :
    raw = raw' ↔ raw.Agree raw' := by
  have hrel := rel_spends cf (RawTx.validate_eq_true h).2.1 (hid ▸ (RawTx.validate_eq_true h').2.1)
  refine ⟨?_, fun hagree => ?_⟩
  · rintro rfl nam sp sp' hsp hsp'
    obtain rfl := Option.mem_unique hsp hsp'
    exact ⟨rfl, fun _ => rfl⟩
  have hspends : raw.spends = raw'.spends := by
    ext1 nam
    have hnam := hrel nam
    cases hsp : raw.spends.get nam with
    | none =>
      rw [hsp] at hnam
      cases hsp' : raw'.spends.get nam with
      | none => rfl
      | some sp' => rw [hsp'] at hnam; cases hnam
    | some sp =>
      rw [hsp] at hnam
      cases hsp' : raw'.spends.get nam with
      | none => rw [hsp'] at hnam; cases hnam
      | some sp' =>
        rw [hsp'] at hnam
        cases hnam with
        | some hsame =>
          rw [Spend.eq_of_agree cf once hsame (verifySignatures_of_validate h hsp)
            (verifySignatures_of_validate h' hsp') (hagree nam sp sp' hsp hsp')]
  obtain ⟨id, spends⟩ := raw
  obtain ⟨id', spends'⟩ := raw'
  obtain rfl : id = id' := hid
  obtain rfl : spends = spends' := hspends
  rfl

end RawTx

end V1

end Identity

section Malleable

open V1

-- What the id of the transactions below hashes, which is the same for all of them.
local instance malleableTip5 : Tip5 :=
  tableTip5 [.atom 1, .atom 0] (([(0, 2), (0, 1), (2, 2)].map fun x => (.ofNat x.1, .ofNat x.2)) ++
      [(LockMerkleProof.axisDigest, .ofNat 5)] ++
      ([(2, 7), (2, 5), (9, 11), (0, 0), (2, 15), (2, 17), (19, 5), (21, 0), (13, 23), (0, 25),
          (3, 27), (29, 5), (0, 31)].map fun x => (.ofNat x.1, .ofNat x.2)))

local instance malleableCheetah : Cheetah := ⟨fun _ m _ _ => m = .ofNat 0⟩

/-- A transaction with one spend, of a note whose lock asks for nothing, by the output source of
its seed and the axis of its witness. -/
def malleableRaw (source : Option Source) (axis : Nat) : V1.RawTx :=
  ⟨.ofNat 33, ZMap.put ∅ ⟨.ofNat 0, .ofNat 0⟩ (.s1 {
    witness := ⟨⟨[], axis, ⟨.ofNat 2, []⟩⟩, ∅, ∅⟩
    seeds := ZSet.put ∅ ⟨source, .ofNat 2, ∅, 1, .ofNat 0⟩
    fee := 1 })⟩

theorem malleable_signsOnce : SignsOnce := by
  intro pk sg d d' h h'
  have hd : d = .ofNat 0 := of_decide_eq_true h
  have hd' : d' = .ofNat 0 := of_decide_eq_true h'
  rw [hd, hd']

theorem malleableRaw_valid : (malleableRaw none 1).validate = some true ∧
    (malleableRaw none 2).validate = some true ∧
    (malleableRaw (some ⟨.ofNat 0, false⟩) 1).validate = some true := by
  decide +kernel

/-- Valid transactions with one id, under a hash without collisions, that differ in an axis or in
an output source. -/
theorem ne_malleableRaw : CollisionFree ∧ SignsOnce ∧
    (malleableRaw none 1).validate = some true ∧ (malleableRaw none 2).validate = some true ∧
    (malleableRaw (some ⟨.ofNat 0, false⟩) 1).validate = some true ∧
    (malleableRaw none 2).id = (malleableRaw none 1).id ∧
    (malleableRaw (some ⟨.ofNat 0, false⟩) 1).id = (malleableRaw none 1).id ∧
    malleableRaw none 2 ≠ malleableRaw none 1 ∧
    malleableRaw (some ⟨.ofNat 0, false⟩) 1 ≠ malleableRaw none 1 := by
  obtain ⟨h, haxis, hsource⟩ := malleableRaw_valid
  refine ⟨collisionFree_tableTip5 _ _, malleable_signsOnce, h, haxis, hsource, rfl, rfl, ?_, ?_⟩
  · decide +kernel
  · decide +kernel

theorem eq_iff_agree_malleableRaw : malleableRaw none 1 = malleableRaw none 2 ↔
    (malleableRaw none 1).Agree (malleableRaw none 2) :=
  V1.RawTx.eq_iff_agree (collisionFree_tableTip5 _ _) malleable_signsOnce malleableRaw_valid.1
    malleableRaw_valid.2.1 rfl

end Malleable

end Nockchain.TxEngine
