import Nockchain.Proofs.Wallet.Conservation

/-!
# `Nockchain.Proofs.Wallet.Multisig`: inputs of several owners

When an input has a multisig lock, all inputs should have it. The builder looks for the
first note with such a lock and compares the names of the notes with that of the lock;
but by then the search has dropped the notes before it. `unmixed_iff` says that these are
the only ones that may have another name.
-/

set_option autoImplicit false

namespace Nockchain.Wallet

open Lib TxEngine.V1 Option List
open TxEngine hiding Nnote

/-! ### Lock data -/

section LockData

theorem softHash_toNoun (d : Digest) : softHash (toNoun d) = some d := rfl

theorem softRange_toNoun (r : TimelockRange) : softRange (toNoun r) = some r := by
  obtain ⟨min, max⟩ := r
  cases min <;> cases max <;> rfl

/-- The mold of a tree finds the items of a tree. -/
theorem exists_softTree {α : Type} [ToNoun α] {item : Noun → Option α}
    (hitem : ∀ x, item (toNoun x) = some x) (t : Lib.Tree α) :
    ∃ l, softTree item (toNoun t) = some l ∧ ∀ x, x ∈ l ↔ x ∈ t := by
  induction t with
  | nil => exact ⟨[], rfl, fun _ => Iff.rfl⟩
  | node n l r ihl ihr =>
    obtain ⟨ls, hls, hl⟩ := ihl
    obtain ⟨rs, hrs, hr⟩ := ihr
    have hsoft : softTree item (toNoun (Lib.Tree.node n l r)) = some (n :: ls ++ rs) := by
      show softTree item (.cell (toNoun n) (.cell (toNoun l) (toNoun r))) = _
      simp [softTree, hitem, hls, hrs]
    refine ⟨_, hsoft, fun x => ?_⟩
    rw [Lib.Tree.mem_def, Lib.Tree.toList]
    simp only [cons_append, mem_cons, mem_append, hl, hr, Lib.Tree.mem_def]
    tauto

variable [Tip5]

theorem softSet_toNoun (s : ZSet Digest) : softSet (toNoun s) = some s := by
  obtain ⟨l, hl, hmem⟩ := exists_softTree softHash_toNoun s.tree
  have hset : ZSet.gas ∅ l = s := by
    ext x
    rw [ZSet.mem_gas, hmem]
    simp [ZSet.not_mem_empty]
    rfl
  simp [softSet, show softTree softHash (toNoun s) = some l from hl, hset]

theorem softPrimitive_toNoun (lp : LockPrimitive) : softPrimitive (toNoun lp) = some lp := by
  cases lp with
  | pkh p => exact congrArg (Option.map fun h => LockPrimitive.pkh ⟨p.m, h⟩) (softSet_toNoun p.h)
  | tim t =>
    have hrel := softRange_toNoun t.rel
    have habs := softRange_toNoun t.abs
    show (do return LockPrimitive.tim ⟨← softRange (toNoun t.rel), ← softRange (toNoun t.abs)⟩) = _
    simp [hrel, habs]
  | hax h => exact congrArg (Option.map LockPrimitive.hax) (softSet_toNoun h)
  | brn => rfl

/-- The wallet reads the locks that it writes. -/
theorem softLock_toNoun {lok : Lock} (h : lok ≠ []) :
    softLock (.cell (.atom 0) (toNoun lok)) = some lok := by
  have hlist : ∀ l : Lock, softList softPrimitive (toNoun l) = some l := by
    intro l
    induction l with
    | nil => rfl
    | cons lp l ih =>
      show softList softPrimitive (.cell (toNoun lp) (toNoun l)) = _
      simp [softList, softPrimitive_toNoun, ih]
  cases lok with
  | nil => exact absurd rfl h
  | cons lp l =>
    rw [← hlist (lp :: l)]
    -- every primitive is a cell
    cases lp with
    | pkh _ | tim _ | hax _ | brn => rfl

end LockData

/-! ### Names of locks -/

section Multisig

variable [Tip5] {notes : List Nnote}

/-- The first name of the notes under a lock. -/
def nameOf (lok : Lock) : Option Digest := do nnameFirst (← lok.hash)

/-- No multisig lock of a note is mixed with another lock: all notes have its name. -/
def Unmixed (notes : List Nnote) : Prop :=
  ∀ note ∈ notes, ∀ lok, multisigLock note = some lok →
    ∀ n ∈ notes, nameOf lok = some n.firstName

/-- The notes from the first one with a multisig lock on are checked. -/
theorem nameOf_of_shared {pre post : List Nnote} {note : Nnote} {lok : Lock} {shared : Option Lock}
    (h : sharedMultisigLock (pre ++ note :: post) = some shared)
    (hpre : ∀ n ∈ pre, multisigLock n = none) (hnote : multisigLock note = some lok) :
    ∀ n ∈ note :: post, nameOf lok = some n.firstName := by
  induction pre with
  | nil =>
    rw [nil_append, sharedMultisigLock, hnote] at h
    simp only [bind_eq_some, guard_eq_some', pure_eq_some] at h
    obtain ⟨root, hroot, refFn, hrefFn, -, hall, -⟩ := h
    intro n hn
    rwa [of_decide_eq_true (all_eq_true.1 hall n hn), nameOf, hroot]
  | cons n pre ih =>
    rw [cons_append, sharedMultisigLock, hpre n (.head _)] at h
    exact ih h fun n hn => hpre n (.tail _ hn)

/-- The loop opens every note, also those that it leaves out. -/
theorem unlock_of_processSpends {includeData : Bool} {unlock : Nnote → Option (Seeds → Nat → Spend)}
    {lok : Lock} {state final : SpendBuildState}
    (h : processSpends includeData unlock lok notes state = some final) :
    ∀ note ∈ notes, ∃ spend, unlock note = some spend := by
  induction notes generalizing state with
  | nil => exact fun _ hnote => nomatch hnote
  | cons note notes ih =>
    simp only [processSpends, bind_eq_some] at h
    obtain ⟨spend, hspend, ⟨pending, specs, feePortion⟩, -, h⟩ := h
    refine forall_mem_cons.2 ⟨⟨spend, hspend⟩, ?_⟩
    split at h
    · exact ih h
    · simp only [bind_eq_some] at h
      obtain ⟨seeds, -, _, -, h⟩ := h
      exact ih h

/-- A note that can be opened has the name of the lock in its data. -/
theorem nameOf_of_unlock1 {senderPkh : Digest} {note : Nnote} {lok : Lock}
    {spend : Seeds → Nat → Spend} (h : unlock1 senderPkh note = some spend)
    (hlok : multisigLock note = some lok) : nameOf lok = some note.firstName := by
  cases note with
  | v0 note => cases hlok
  | v1 note =>
    simp only [unlock1, pullLock, bind_eq_some, guard_eq_some', pure_eq_some] at h
    obtain ⟨_, ⟨pulled, hpulled, lok', hlok', root, hroot, refFn, hrefFn, -, hname, rfl⟩, -⟩ := h
    have hsoft : (note.noteData.get (Noun.tas "lock")).bind softLock = some lok := by
      simp only [multisigLock] at hlok
      split at hlok
      case h_1 lp hsoft =>
        rw [hsoft, ← hlok, eq_comm]
        exact if_neg fun hone => by simp [hone] at hlok
      case h_2 => cases hlok
    obtain ⟨lockNoun, hget, hsoft⟩ := bind_eq_some_iff.1 hsoft
    rw [pullLockInner, hget] at hpulled
    cases hpulled
    cases hlok'.symm.trans hsoft
    rw [nameOf, hroot]
    exact hrefFn.trans (congrArg some hname)

/-- In a transaction that the builder accepts, multisig inputs are not mixed with others exactly if
the notes before the first multisig note, in the order of the assets, have its name as well. -/
theorem unmixed_iff {orders : List Order} {fee : Nat} {signerPubkeys : List SchnorrPubkey}
    {refundPkh : Option Digest} {includeData : Bool} {spends : Spends}
    (h : txBuilder notes orders fee signerPubkeys refundPkh includeData = some spends) :
    Unmixed notes ↔ ∀ pre note post lok, sortByAssets notes.length notes = pre ++ note :: post →
      (∀ n ∈ pre, multisigLock n = none) → multisigLock note = some lok →
      ∀ n ∈ pre, nameOf lok = some n.firstName := by
  have hmem : ∀ n, n ∈ sortByAssets notes.length notes ↔ n ∈ notes :=
    fun n => (sortByAssets_perm le_rfl).mem_iff
  constructor
  · intro hunmixed pre note post lok hsort _ hlok n hn
    have hsub : ∀ n ∈ pre ++ note :: post, n ∈ notes := fun n hn => (hmem n).1 (hsort ▸ hn)
    exact hunmixed note (hsub note (by simp)) lok hlok n (hsub n (mem_append_left _ hn))
  intro hbefore note hnote lok hlok
  simp only [txBuilder, bind_eq_some, guard_eq_some', pure_eq_some] at h
  obtain ⟨-, -, senderPubkey, -, senderPkh, -, raw, hraw, -⟩ := h
  simp only [rawSpends, refundLock, bind_eq_some] at hraw
  obtain ⟨refund, hrefund, hraw⟩ := hraw
  -- a note with a multisig lock is of version 1, and so are all
  have hv1 : ¬ (sortByAssets notes.length notes).all isV0 = true := by
    intro hall
    have hv0 := all_eq_true.1 hall note ((hmem note).2 hnote)
    cases note with
    | v0 note => cases hlok
    | v1 note => cases hv0
  rw [if_neg hv1] at hrefund hraw
  simp only [bind_eq_some, createSpends1, createSpends] at hrefund hraw
  obtain ⟨shared, hshared, -⟩ := hrefund
  obtain ⟨-, -, final, hfinal, -⟩ := hraw
  have hopen := unlock_of_processSpends hfinal
  -- the first note with a multisig lock
  obtain ⟨first, hfirst⟩ := isSome_iff_exists.1
    ((find?_isSome (p := fun n => (multisigLock n).isSome)).2
      ⟨note, (hmem note).2 hnote, isSome_iff_exists.2 ⟨lok, hlok⟩⟩)
  obtain ⟨hsome, pre, post, hsort, hpre⟩ := find?_eq_some_iff_append.1 hfirst
  obtain ⟨lok₀, hlok₀⟩ := isSome_iff_exists.1 hsome
  have hnone : ∀ n ∈ pre, multisigLock n = none := fun n hn => by simpa using hpre n hn
  rw [hsort] at hshared hopen
  have hall : ∀ n ∈ pre ++ first :: post, nameOf lok₀ = some n.firstName := by
    intro n hn
    rcases mem_append.1 hn with hn | hn
    · exact hbefore pre first post lok₀ hsort hnone hlok₀ n hn
    · exact nameOf_of_shared hshared hnone hlok₀ n hn
  have hsub : ∀ n ∈ notes, n ∈ pre ++ first :: post := fun n hn => hsort ▸ (hmem n).2 hn
  obtain ⟨spend, hspend⟩ := hopen note (hsub note hnote)
  intro n hn
  rw [nameOf_of_unlock1 hspend hlok, ← hall note (hsub note hnote), hall n (hsub n hn)]

end Multisig

section Mixed

local instance mixedTip5 : Tip5 := mixTip5

/-- A lock of two keys. -/
def pairLock : Lock := [.pkh ⟨2, ZSet.gas ∅ [.ofNat 4, .ofNat 5]⟩]

/-- A note of the two, with the lock in its data. -/
def pairNote (last : Nat) : Nnote := .v1
  { originPage := 1, name := ⟨((nameOf pairLock).getD (.ofNat 0)), .ofNat last⟩
    noteData := ZMap.put ∅ (Noun.tas "lock") (.cell (.atom 0) (toNoun pairLock))
    assets := 4000000 }

theorem multisigLock_pairNote (last : Nat) : multisigLock (pairNote last) = some pairLock := by
  have hget : (ZMap.put ∅ (Noun.tas "lock") (.cell (.atom 0) (toNoun pairLock)) : NoteData).get
      (Noun.tas "lock") = some (.cell (.atom 0) (toNoun pairLock)) := by
    rw [ZMap.get_put, if_pos rfl]
  simp only [multisigLock, pairNote, hget, Option.bind_some,
    softLock_toNoun (show pairLock ≠ [] from cons_ne_nil _ _)]
  exact if_neg (by decide +kernel)

/-- A larger note of the sender alone. -/
def plainNote : Nnote := .v1
  { originPage := 1, noteData := ∅, assets := 6000000
    name := ⟨((do nameOf (simpleLock (← hashHashable twiceKey.hashable))).getD (.ofNat 0)),
      .ofNat 3⟩ }

/-- The transaction for an order of five. -/
def pairSpends (notes : List Nnote) (fee : Nat) : Option Spends :=
  txBuilder notes [.pkh (.ofNat 6) 5] fee [twiceKey] (some (.ofNat 7)) false

/-- The note of the sender is larger, and so it is not checked. Both notes are spent. -/
theorem not_unmixed_plain : (pairSpends [pairNote 2, plainNote] 8000000).any
      (fun spends => spends.wyt = 2) = true ∧ ¬ Unmixed [pairNote 2, plainNote] := by
  refine ⟨by decide +kernel, fun h => ?_⟩
  have hname := h (pairNote 2) (by simp) pairLock (multisigLock_pairNote 2) plainNote (by simp)
  exact absurd hname (by decide +kernel)

/-- Two notes of the same two keys. -/
theorem unmixed_pair : ∃ spends, pairSpends [pairNote 2, pairNote 3] 7000000 = some spends ∧
    Unmixed [pairNote 2, pairNote 3] := by
  obtain ⟨spends, hspends⟩ := isSome_iff_exists.1
    (show (pairSpends [pairNote 2, pairNote 3] 7000000).isSome = true by decide +kernel)
  refine ⟨spends, hspends, (unmixed_iff hspends).2 ?_⟩
  -- the first note has a multisig lock, so there is none before it
  intro pre note post lok hsort hpre _ n hn
  have hmem : n ∈ [pairNote 2, pairNote 3] :=
    (sortByAssets_perm le_rfl).mem_iff.1 (hsort ▸ mem_append_left _ hn)
  have hnone := hpre n hn
  simp only [mem_cons, not_mem_nil, or_false] at hmem
  rcases hmem with rfl | rfl
  · cases (multisigLock_pairNote 2).symm.trans hnone
  · cases (multisigLock_pairNote 3).symm.trans hnone

end Mixed

end Nockchain.Wallet
