import Mathlib

/-!
# `Nockchain.Noun`: nouns and tree addressing

The data every part of the system works on. A noun is an atom (a natural
number of any size) or a cell (an ordered pair of nouns). The virtual
machine's split of atoms into direct and indirect words is a matter of
storage: no function modelled here depends on it, so an atom is a `Nat`.

An axis addresses a subtree. Read in binary, below its leading one, the axis
is a path from the root: a zero bit descends to the head, a one bit to the
tail. `axisBits` is that path, in the order the axis iterators of `noun.rs`
produce it, and `slot` walks it.
-/

set_option autoImplicit false

namespace Nockchain

/-- A noun: an atom, or a cell of two nouns. -/
inductive Noun where
  | atom (a : Nat)
  | cell (head tail : Noun)
deriving DecidableEq, Repr, Inhabited

namespace Noun

/-- `is_cell`. -/
def isCell : Noun → Bool
  | atom _ => false
  | cell _ _ => true

@[simp] theorem isCell_atom (a : Nat) : (atom a).isCell = false := rfl

@[simp] theorem isCell_cell (h t : Noun) : (cell h t).isCell := rfl

/-- The bits of an axis below its leading one, most significant first: the
sequence `DirectAxisIterator` and `IndirectAxisIterator` yield. A set bit
means "descend to the tail". -/
def axisBits (axis : Nat) : List Bool :=
  (List.range (Nat.log2 axis)).reverse.map (axis.testBit ·)

/-- Follow a path of bits from the root. A path that runs through an atom
leads nowhere. -/
def walk : List Bool → Noun → Option Noun
  | [], n => some n
  | b :: bs, cell h t => walk bs (if b then t else h)
  | _ :: _, atom _ => none

/-- `slot_atom`: the subtree at an axis. Axis `0` addresses nothing. -/
def slot (n : Noun) (axis : Nat) : Option Noun :=
  if axis = 0 then none else walk (axisBits axis) n

/-- A null-terminated list of nouns, as a noun. -/
def ofList : List Noun → Noun
  | [] => atom 0
  | n :: ns => cell n (ofList ns)

/-- The elements of a null-terminated list; `none` if the spine does not end
in the atom `0`. -/
def toList : Noun → Option (List Noun)
  | atom 0 => some []
  | atom _ => none
  | cell h t => (toList t).map (h :: ·)

/-- A text constant, as the `tas!` macro builds it: the bytes of the text,
the first one lowest. -/
def tas (s : String) : Nat :=
  s.toList.foldr (fun c acc => c.toNat + 256 * acc) 0

end Noun

end Nockchain
