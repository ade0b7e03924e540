import Nockchain.Lib.Bits
import Nockchain.Zoon.Container

/-!
# `Nockchain.TxEngine.Basic`: keys, locks, timelocks and names

The types that both versions of the transaction engine share, from
`tx-engine-0.hoon`: public keys and signatures, the source and the name of a
note, timelocks, and `sig`, the m-of-n lock of a version 0 note.

The curve is a parameter (`Cheetah`): no function of the engine looks inside a
key except to check that it is made of field elements. A function that hashes
can crash, and is then `none`.
-/

set_option autoImplicit false

namespace Nockchain.TxEngine

open Lib

/-! ### Refusals -/

/-- The terms with which the engine refuses a transaction, as the source has them. -/
inductive Term where
  | v0TxAfterCutoff
  | v0TxInvalid
  | v0OutputAlreadyExists
  | v0InputMissing
  | v0TimelockFailed
  | v1TxBeforeActivation
  | v1TxInvalid
  | v1NoteDataExceedsMaxSize
  | v1InputMissing
  | v1SpendVersionMismatch
  | v1Spend0VerifyFailed
  | v1Spend0GiftsFailed
  | v1Spend1LockFailed
  | v1Spend1GiftsFailed
  | v1InsufficientFee
  | v1OutputWrongNoteVersion
  | v1OutputAlreadyExists
  | processCrashedNonDeterministic
deriving DecidableEq, Repr

/-- `(reason a)`, of a gate that can also crash: `none` is a crash. -/
abbrev Reason := ExceptT Term Option

namespace Reason

variable {α β : Type}

/-- Refuse with a term unless a condition holds. -/
def require (c : Bool) (t : Term) : Reason Unit := if c then pure () else throw t

/-- The result of a gate that returns no term: a crash of it is a crash. -/
def ofOption (x : Option α) : Reason α := ExceptT.lift x

/-- A run that returns `[%.y x]`. -/
def Ok (r : Reason α) (x : α) : Prop := r.run = some (.ok x)

@[simp] theorem ok_pure {x y : α} : Ok (pure x : Reason α) y ↔ x = y := by
  simp [Ok, ExceptT.run, pure, ExceptT.pure, ExceptT.mk]

@[simp] theorem ok_throw {t : Term} {y : α} : ¬ Ok (throw t : Reason α) y := by
  simp [Ok, ExceptT.run, throw, throwThe, MonadExceptOf.throw, ExceptT.mk]

theorem ok_bind {r : Reason α} {f : α → Reason β} {y : β} :
    Ok (r >>= f) y ↔ ∃ x, Ok r x ∧ Ok (f x) y := by
  unfold Ok
  simp only [ExceptT.run_bind]
  cases h : r.run with
  | none => simp
  | some e => cases e <;> simp

@[simp] theorem ok_require {c : Bool} {t : Term} {u : Unit} : Ok (require c t) u ↔ c := by
  cases c <;> simp [require]

@[simp] theorem ok_ofOption {x : Option α} {y : α} : Ok (ofOption x) y ↔ x = some y := by
  cases x <;> simp [Ok, ofOption, ExceptT.run, ExceptT.lift, ExceptT.mk]

/-- A fold that returns `[%.y b']` is a run of its steps. -/
theorem run_of_foldlM {f : β → α → Reason β} {l : List α} {b b' : β}
    (h : Ok (l.foldlM f b) b') : Run (fun b x b' => Ok (f b x) b') b l b' := by
  induction l generalizing b with
  | nil =>
    rw [List.foldlM_nil, ok_pure] at h
    exact h ▸ .nil b
  | cons x l ih =>
    rw [List.foldlM_cons, ok_bind] at h
    obtain ⟨c, hc, h⟩ := h
    exact .cons hc (ih h)

theorem foldlM_of_run {f : β → α → Reason β} {l : List α} {b b' : β}
    (h : Run (fun b x b' => Ok (f b x) b') b l b') : Ok (l.foldlM f b) b' := by
  induction h with
  | nil b => rw [List.foldlM_nil, ok_pure]
  | cons hx _ ih =>
    rw [List.foldlM_cons, ok_bind]
    exact ⟨_, hx, ih⟩

theorem ok_forM {f : α → Reason PUnit} {l : List α} {u : PUnit} :
    Ok (l.forM f) u ↔ ∀ x ∈ l, Ok (f x) () := by
  induction l with
  | nil => simp [List.forM_nil]
  | cons x l ih =>
    rw [show (x :: l).forM f = f x >>= fun _ => l.forM f from rfl, ok_bind,
      List.forall_mem_cons, ← ih]
    exact ⟨fun ⟨_, hx⟩ => hx, fun hx => ⟨(), hx⟩⟩

end Reason

/-! ### Hashables of containers -/

/-- The hashable of a tree: its nodes as triples, `leaf+~` where it ends. -/
def treeHashable {α : Type} (f : α → Hashable) : Lib.Tree α → Hashable
  | .nil => .leaf (.atom 0)
  | .node n l r => .pair (f n) (.pair (treeHashable f l) (treeHashable f r))

/-- `hash+(hash-hashable h)`. Hashing what contains it hashes `h` first, or crashes with it, so
that `h` can stand in its place. -/
abbrev hashOf (h : Hashable) : Hashable := h

/-- `leaf+~`. -/
abbrev leafNull : Hashable := .leaf (.atom 0)

/-- The hashable of a unit. -/
def unitHashable {α : Type} (f : α → Hashable) : Option α → Hashable
  | none => leafNull
  | some u => .pair leafNull (f u)

/-- `leaf+x`. -/
def leafOf {α : Type} [ToNoun α] (x : α) : Hashable := .leaf (toNoun x)

/-! ### Keys and signatures -/

/-- `f6lt`: an element of the field of the curve. -/
structure F6lt where
  a0 : Nat
  a1 : Nat
  a2 : Nat
  a3 : Nat
  a4 : Nat
  a5 : Nat
deriving DecidableEq, Repr, Inhabited

/-- `f6lt-based`. -/
def F6lt.isBased (f : F6lt) : Bool :=
  based f.a0 && based f.a1 && based f.a2 && based f.a3 && based f.a4 && based f.a5

instance : ToNoun F6lt where
  toNoun f := toNoun (f.a0, f.a1, f.a2, f.a3, f.a4, f.a5)

/-- `schnorr-pubkey`: an affine point of the curve. -/
structure SchnorrPubkey where
  x : F6lt
  y : F6lt
  inf : Bool
deriving DecidableEq, Repr, Inhabited

instance : ToNoun SchnorrPubkey where
  toNoun k := toNoun (k.x, k.y, k.inf)

/-- `based:schnorr-pubkey`. -/
def SchnorrPubkey.isBased (k : SchnorrPubkey) : Bool := k.x.isBased && k.y.isBased

/-- `hashable` of a key: `leaf+form`. -/
def SchnorrPubkey.hashable (k : SchnorrPubkey) : Hashable := leafOf k

/-- `t8`: eight words. -/
structure T8 where
  a : Nat
  b : Nat
  c : Nat
  d : Nat
  e : Nat
  f : Nat
  g : Nat
  h : Nat
deriving DecidableEq, Repr, Inhabited

/-- `based:belt-schnorr`. -/
def T8.isBased (t : T8) : Bool :=
  based t.a && based t.b && based t.c && based t.d && based t.e && based t.f && based t.g &&
    based t.h

/-- `t8-to-atom`: the words one after the other, each in as many 32-bit blocks as it fills
(`rap 5`). -/
def T8.toAtom (t : T8) : Nat :=
  [t.a, t.b, t.c, t.d, t.e, t.f, t.g, t.h].foldr
    (fun w n => w + n * 2 ^ (32 * ((width w + 31) / 32))) 0

instance : ToNoun T8 where
  toNoun t := toNoun (t.a, t.b, t.c, t.d, t.e, t.f, t.g, t.h)

/-- `schnorr-signature`. -/
structure SchnorrSignature where
  chal : T8
  sig : T8
deriving DecidableEq, Repr, Inhabited

instance : ToNoun SchnorrSignature where
  toNoun s := toNoun (s.chal, s.sig)

/-- `based:schnorr-signature`. -/
def SchnorrSignature.isBased (s : SchnorrSignature) : Bool := s.chal.isBased && s.sig.isBased

/-- `hashable:schnorr-signature`. -/
def SchnorrSignature.hashable (s : SchnorrSignature) : Hashable := leafOf s

/-- The signature scheme over the curve. -/
class Cheetah where
  /-- `verify:affine:schnorr`: a signature, as two numbers, by a key on a digest. -/
  verify : SchnorrPubkey → Digest → Nat → Nat → Bool

/-- `verify:affine:belt-schnorr`. -/
def verifySignature [Cheetah] (pk : SchnorrPubkey) (m : Digest) (s : SchnorrSignature) : Bool :=
  Cheetah.verify pk m s.chal.toAtom s.sig.toAtom

/-- `batch-verify:affine:belt-schnorr`. -/
def batchVerify [Cheetah] (batch : List (SchnorrPubkey × Digest × SchnorrSignature)) : Bool :=
  batch.all fun x => verifySignature x.1 x.2.1 x.2.2

/-! ### Sources and timelocks -/

/-- `$source`: where the assets of a note come from. -/
structure Source where
  p : Digest
  isCoinbase : Bool
deriving DecidableEq, Repr, Inhabited

instance : ToNoun Source where
  toNoun s := toNoun (s.p, s.isCoinbase)

/-- `hashable:source`. -/
def Source.hashable (s : Source) : Hashable := .pair (.hash s.p) (leafOf s.isCoinbase)

/-- `hashable-unit:source`. -/
def Source.hashableUnit : Option Source → Hashable := unitHashable Source.hashable

/-- `$timelock-range`. -/
structure TimelockRange where
  min : Option Nat
  max : Option Nat
deriving DecidableEq, Repr, Inhabited

instance : ToNoun TimelockRange where
  toNoun r := toNoun (r.min, r.max)

namespace TimelockRange

/-- `*timelock-range`: no bound. -/
def unbounded : TimelockRange := ⟨none, none⟩

/-- `new:timelock-range`: a bound of `0` is no bound. Each of the two edits starts again from the
arguments. -/
def new (min max : Option Nat) : TimelockRange :=
  let range : TimelockRange := ⟨min, max⟩
  let range := if range.min = some 0 then ⟨none, max⟩ else range
  if range.max = some 0 then ⟨min, none⟩ else range

/-- `check:timelock-range`. -/
def check (tir : TimelockRange) (newPageNumber : Nat) : Bool :=
  if tir = unbounded then true
  else
    (match tir.min with
      | none => true
      | some u => u ≤ newPageNumber) &&
    (match tir.max with
      | none => true
      | some u => newPageNumber ≤ u)

/-- The bound of a merged range: the one there is, or both through `f`. -/
def mergeBound (f : Nat → Nat → Nat) : Option Nat → Option Nat → Option Nat
  | none, b => b
  | a, none => a
  | some a, some b => some (f a b)

/-- `merge:timelock-range`. -/
def merge (a b : TimelockRange) : TimelockRange :=
  if a = unbounded then b
  else if b = unbounded then a
  else new (mergeBound Nat.max a.min b.min) (mergeBound Nat.min a.max b.max)

/-- `based:timelock-range`. -/
def isBased (r : TimelockRange) : Bool := r.min.all based && r.max.all based

/-- `hashable:timelock-range`. -/
def hashable (r : TimelockRange) : Hashable :=
  .pair (unitHashable leafOf r.min) (unitHashable leafOf r.max)

end TimelockRange

/-- `$timelock-intent`: the timelock that a seed asks for, if it asks for one. A `$timelock` is
one that is not a pair of unbounded ranges. -/
structure TimelockIntent where
  absolute : TimelockRange
  relative : TimelockRange
deriving DecidableEq, Repr, Inhabited

instance : ToNoun TimelockIntent where
  toNoun t := toNoun (t.absolute, t.relative)

namespace Timelock

/-- `convert-from-intent:timelock`. -/
def convertFromIntent (int : Option TimelockIntent) : Option TimelockIntent :=
  if int = some ⟨.unbounded, .unbounded⟩ then none else int

/-- `fix-absolute:timelock`. -/
def fixAbsolute (til : Option TimelockIntent) (pageNum : Nat) : TimelockRange :=
  match til with
  | none => .unbounded
  | some u =>
    let absolutification : TimelockRange :=
      if u.relative = .unbounded then .unbounded
      else .new (u.relative.min.map (· + pageNum)) (u.relative.max.map (· + pageNum))
    absolutification.merge u.absolute

/-- `based:timelock-intent`. -/
def isBased (t : Option TimelockIntent) : Bool :=
  t.all fun u => u.absolute.isBased && u.relative.isBased

/-- `hashable:timelock-intent`. -/
def hashable : Option TimelockIntent → Hashable
  | none => leafNull
  | some u => .pair leafNull (.pair u.absolute.hashable u.relative.hashable)

end Timelock

/-! ### Names and locks -/

/-- `$nname`: `[first last ~]`. -/
structure Nname where
  first : Digest
  last : Digest
deriving DecidableEq, Repr, Inhabited

instance : ToNoun Nname where
  toNoun n := toNoun (n.first, n.last, 0)

/-- `based:nname`. -/
def Nname.isBased (n : Nname) : Bool := n.first.isBased && n.last.isBased

/-- `hashable:nname`. -/
def Nname.hashable (n : Nname) : Hashable := .pair (.hash n.first) (.pair (.hash n.last) leafNull)

section Locks

variable [Tip5]

/-- `$sig`: `m` of a set of keys. -/
structure Sig where
  m : Nat
  pubkeys : ZSet SchnorrPubkey
deriving DecidableEq

instance : ToNoun Sig where
  toNoun s := toNoun (s.m, s.pubkeys)

/-- `*sig`. -/
instance : Inhabited Sig := ⟨⟨1, ∅⟩⟩

namespace Sig

/-- `based:sig`. -/
def isBased (s : Sig) : Bool :=
  s.m ≤ 255 && s.pubkeys.wyt ≤ 255 && s.pubkeys.tap.all fun pt => pt.isBased && !pt.inf

/-- `hashable:sig`. -/
def hashable (s : Sig) : Hashable :=
  .pair (leafOf s.m) (treeHashable (fun k => hashOf k.hashable) s.pubkeys.tree)

end Sig

/-- `signature`: signatures by key. -/
abbrev Signature := ZMap SchnorrPubkey SchnorrSignature

/-- `based:signature`. -/
def Signature.isBased (s : Signature) : Bool := s.tap.all fun x => x.1.isBased && x.2.isBased

/-- `hashable:signature`. -/
def Signature.hashable (s : Signature) : Hashable :=
  treeHashable (fun x => .pair (hashOf x.1.hashable) x.2.hashable) s.tree

end Locks

end Nockchain.TxEngine
