import Nockchain.Noun

/-!
# `Nockchain.Tip5`: digests, the hash and what is hashed

The hash of `ztd/three.hoon`. The permutation itself is a parameter: a `Tip5`
has the two functions that the rest of the chain calls, the sponge over a whole
noun and the one over a pair of digests. Its law is the one fact about a digest
that the treap orders rest on: its words are field elements, so that reading
them as the digits of a number loses nothing.

`hashNounVarlen` crashes on a noun with a leaf that is not a field element, as
the source does, so it is `none` there; `hashHashable` follows it.
`CollisionFree` says that the two functions have no collisions on the inputs
they accept. It is a hypothesis of the results that need it.

The `%list` and `%mary` forms of `$hashable` are for proofs of work. No
transaction or page is hashed with them and they are left out.
-/

set_option autoImplicit false

namespace Nockchain

/-- `p`: the order of the base field. -/
def basePrime : Nat := 18446744069414584321

/-- `based`: the number is a field element. -/
def based (a : Nat) : Bool := a < basePrime

/-- `based-noun`. -/
def basedNoun : Noun → Bool
  | .atom a => based a
  | .cell h t => basedNoun h && basedNoun t

/-- `noun-digest`: five words. -/
structure Digest where
  a : Nat
  b : Nat
  c : Nat
  d : Nat
  e : Nat
deriving DecidableEq, Repr, Inhabited

namespace Digest

/-- `digest-to-atom`: the words as the digits of a number, lowest first. -/
def toAtom (d : Digest) : Nat :=
  d.a + basePrime * d.b + basePrime ^ 2 * d.c + basePrime ^ 3 * d.d + basePrime ^ 4 * d.e

/-- `based:hash`. -/
def isBased (d : Digest) : Bool :=
  based d.a && based d.b && based d.c && based d.d && based d.e

end Digest

/-- The hash function of the chain. -/
class Tip5 where
  /-- The sponge over the leaves and the shape of a noun. -/
  sponge : Noun → Digest
  /-- The sponge over the ten words of two digests. -/
  sponge10 : Digest → Digest → Digest
  sponge_toAtom : ∀ m n, (sponge m).toAtom = (sponge n).toAtom → sponge m = sponge n
  sponge10_toAtom : ∀ c d c' d', (sponge10 c d).toAtom = (sponge10 c' d').toAtom →
    sponge10 c d = sponge10 c' d'

/-! ### Types that are nouns -/

/-- Values that are nouns of a certain shape. -/
class ToNoun (α : Type) where
  toNoun : α → Noun
  toNoun_injective : Function.Injective toNoun := by
    rintro ⟨⟩ ⟨⟩ h
    simpa [toNoun_inj] using h

export ToNoun (toNoun)

theorem toNoun_inj {α : Type} [ToNoun α] {x y : α} : toNoun x = toNoun y ↔ x = y :=
  ToNoun.toNoun_injective.eq_iff

instance : ToNoun Noun := ⟨id, Function.injective_id⟩

instance : ToNoun Nat := ⟨.atom, fun _ _ h => by injection h⟩

/-- A loobean: `&` is `0`. -/
instance : ToNoun Bool where
  toNoun b := .atom (if b then 0 else 1)
  toNoun_injective := by
    intro x y h
    cases x <;> cases y <;> simp_all

instance {α β : Type} [ToNoun α] [ToNoun β] : ToNoun (α × β) where
  toNoun x := .cell (toNoun x.1) (toNoun x.2)
  toNoun_injective := by
    intro x y h
    simp only [Noun.cell.injEq, toNoun_inj] at h
    exact Prod.ext h.1 h.2

/-- A unit: `~`, or `[~ u]`. -/
instance {α : Type} [ToNoun α] : ToNoun (Option α) where
  toNoun
    | none => .atom 0
    | some x => .cell (.atom 0) (toNoun x)
  toNoun_injective := by
    intro x y h
    cases x <;> cases y <;> simp_all [toNoun_inj]

/-- A null-terminated list. -/
instance {α : Type} [ToNoun α] : ToNoun (List α) where
  toNoun xs := Noun.ofList (xs.map toNoun)
  toNoun_injective := by
    intro xs
    induction xs with
    | nil =>
      intro ys h
      cases ys <;> simp_all [Noun.ofList]
    | cons x xs ih =>
      intro ys h
      cases ys with
      | nil => simp [Noun.ofList] at h
      | cons y ys =>
        simp only [List.map_cons, Noun.ofList, Noun.cell.injEq, toNoun_inj] at h
        rw [h.1, ih h.2]

instance : ToNoun Digest where
  toNoun d := toNoun (d.a, d.b, d.c, d.d, d.e)
  toNoun_injective := by
    rintro ⟨⟩ ⟨⟩ h
    simp only [toNoun_inj, Prod.mk.injEq] at h
    simpa using h

/-! ### Hashing -/

section Hashing

variable [Tip5]

/-- `hash-noun-varlen`: crashes on a leaf that is not a field element. -/
def hashNounVarlen (n : Noun) : Option Digest :=
  if basedNoun n then some (Tip5.sponge n) else none

/-- `hash-ten-cell`. The assertion of `hash-10` that the limbs are field elements is left out: a
digest from outside with a larger limb is hashed here, where the source crashes. -/
def hashTenCell (c d : Digest) : Digest := Tip5.sponge10 c d

/-- `$hashable`: what is to be hashed, and how. -/
inductive Hashable where
  | leaf (n : Noun)
  | hash (d : Digest)
  | pair (h k : Hashable)
deriving DecidableEq, Repr

/-- `hash-hashable`. -/
def hashHashable : Hashable → Option Digest
  | .hash d => some d
  | .leaf n => hashNounVarlen n
  | .pair h k => do
    let c ← hashHashable h
    let d ← hashHashable k
    return hashTenCell c d

/-- The hash has no collisions, within each of its two forms or between them. -/
structure CollisionFree : Prop where
  sponge_inj : ∀ m n, basedNoun m → basedNoun n → Tip5.sponge m = Tip5.sponge n → m = n
  sponge10_inj : ∀ c d c' d', Tip5.sponge10 c d = Tip5.sponge10 c' d' → c = c' ∧ d = d'
  sponge_ne_sponge10 : ∀ n c d, basedNoun n → Tip5.sponge n ≠ Tip5.sponge10 c d

end Hashing

end Nockchain
