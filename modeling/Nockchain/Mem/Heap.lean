import Nockchain.Noun

/-!
# `Nockchain.Mem.Heap`: nouns in memory

The virtual machine holds a noun in one word. A small atom is the word itself; any
other noun is a reference to memory, to the words of an atom or to the head and
the tail of a cell. Memory may be on the stack or in the persistent arena, and a
word refers to the arena by address or by offset. So one noun may have many words,
and many words may share one object.

`Heap.Denotes` says which noun a word stands for. It is an inductive relation, so
a word that denotes a noun leads into no cycle. Atoms are normalized: an atom that
fits is direct, and the uppermost word of an indirect one is not zero.

Beside its data, an object has room for its mug. Zero means that it has none yet.
-/

set_option autoImplicit false

namespace Nockchain.Mem

/-!
## The persistent memory arena

`pma.rs` allocates long-lived nouns in a file that is mapped into memory. The
allocator is a bump pointer, a count of words. `mem.rs` turns such a count into
an address and back, and `noun.rs` packs it with the tag of the noun and a bit
that marks it as an offset. The three agree on what an offset is only as far as
its width goes: a `usize` in the allocator, a `u32` between it and the arena.

An address and a `usize` are a `Nat`, with the remainder modulo `2 ^ 64` where
the code can overflow; a tagged word is a `BitVec 64`.
-/

/-! ### The arena -/

/-- What the operating system answers to a request for `bytes` bytes: a block of the address space
that begins at a page. -/
structure Mapping (bytes : Nat) where
  base : Nat
  base_mod : base % 8 = 0
  base_add_le : base + bytes ≤ 2 ^ 64

/-- `Arena`. -/
structure Arena where
  base : Nat
  words : Nat
deriving DecidableEq, Repr

namespace Arena

/-- `allocate_file`. `checked_shl` refuses only a shift by 64 bits or more, so a size of `2 ^ 61`
words or more loses its upper bits. -/
def allocateFile (map : (bytes : Nat) → Option (Mapping bytes)) (words tailBytes : Nat) :
    Option Arena := do
  let bytes := (words <<< 3) % 2 ^ 64
  guard (bytes + tailBytes < 2 ^ 64)
  let mapping ← map (bytes + tailBytes)
  return ⟨mapping.base, words⟩

/-- `len_bytes`. -/
def lenBytes (arena : Arena) : Nat := (arena.words <<< 3) % 2 ^ 64

/-- `ptr_from_offset`. -/
def ptrFromOffset (arena : Arena) (offsetWords : BitVec 32) : Nat :=
  (arena.base + offsetWords.toNat <<< 3) % 2 ^ 64

/-- `offset_from_ptr`. -/
def offsetFromPtr (arena : Arena) (ptr : Nat) : BitVec 32 :=
  let offsetBytes := (ptr + 2 ^ 64 - arena.base) % 2 ^ 64
  .ofNat 32 (offsetBytes >>> 3)

end Arena

/-! ### Tagged words -/

def directMask : BitVec 64 := ~~~(BitVec.allOnes 64 >>> 1)
def indirectTag : BitVec 64 := BitVec.allOnes 64 &&& directMask
def indirectMask : BitVec 64 := ~~~(BitVec.allOnes 64 >>> 2)
def cellTag : BitVec 64 := BitVec.allOnes 64 &&& indirectMask
def cellMask : BitVec 64 := ~~~(BitVec.allOnes 64 >>> 3)
def locationBit : BitVec 64 := 1 <<< 60

/-- The two kinds of allocated nouns. -/
inductive Kind where
  | indirect
  | cell
deriving DecidableEq, Repr

namespace Kind

def tag : Kind → BitVec 64
  | indirect => indirectTag
  | cell => cellTag

def mask : Kind → BitVec 64
  | indirect => indirectMask
  | cell => cellMask

end Kind

namespace TaggedPtr

/-- `from_offset`. -/
def fromOffset (words : BitVec 32) (tag : BitVec 64) : BitVec 64 :=
  words.setWidth 64 ||| locationBit ||| tag

/-- `payload`. -/
def payload (raw mask : BitVec 64) : BitVec 64 := raw &&& ~~~(mask ||| locationBit)

end TaggedPtr

/-- `resolve_pma_ptr`. A failed assertion is `none`. -/
def Arena.resolvePmaPtr (arena : Arena) (payload : BitVec 64) : Option Nat := do
  let offset := (payload.setWidth 32).toNat
  guard (offset < arena.words)
  let ptr := (arena.base + offset <<< 3) % 2 ^ 64
  guard (arena.base ≤ ptr ∧ ptr < arena.base + arena.lenBytes)
  return ptr

/-- `resolve_const` of a word in offset form. -/
def Arena.resolve (arena : Arena) (kind : Kind) (raw : BitVec 64) : Option Nat :=
  arena.resolvePmaPtr (TaggedPtr.payload raw kind.mask)

/-! ### The allocator -/

/-- `Pma`. -/
structure Pma where
  arena : Arena
  allocOffset : Nat
deriving DecidableEq, Repr

/-- Some words of the arena. -/
structure Region where
  ptr : Nat
  words : Nat
deriving DecidableEq, Repr

namespace Pma

/-- `PMA_TRAILER_BYTES`. -/
def trailerBytes : Nat := 32

/-- `new`. -/
def new (map : (bytes : Nat) → Option (Mapping bytes)) (sizeWords : Nat) : Option Pma := do
  return ⟨← Arena.allocateFile map sizeWords trailerBytes, 0⟩

/-- `free_words`. -/
def freeWords (pma : Pma) : Nat := pma.arena.words - pma.allocOffset

/-- `raw_alloc`: crashes where `alloc_would_oom` does. -/
def rawAlloc (pma : Pma) (words : Nat) : Option (Nat × Pma) := do
  guard (words ≤ pma.freeWords)
  let ptr := pma.arena.ptrFromOffset (.ofNat 32 pma.allocOffset)
  return (ptr, { pma with allocOffset := pma.allocOffset + words })

/-- Allocations of the given sizes, one after the other, and the regions they return. -/
def rawAllocs (pma : Pma) : List Nat → Option (List Region × Pma)
  | [] => some ([], pma)
  | words :: requests => do
    let (ptr, pma) ← pma.rawAlloc words
    let (regions, pma) ← pma.rawAllocs requests
    return (⟨ptr, words⟩ :: regions, pma)

end Pma

/-- How a reference is written: as an address, or as an offset into the persistent arena. -/
inductive Form where
  | pointer
  | offset
deriving DecidableEq, Repr

/-- `Noun`, the word. -/
inductive Word where
  | direct (data : BitVec 63)
  | allocated (kind : Kind) (form : Form) (ptr : Nat)
deriving DecidableEq, Repr

/-- The data of an allocated noun. -/
inductive Object where
  | atom (data : List (BitVec 64))
  | cell (head tail : Word)
deriving DecidableEq, Repr

/-- The value of the words of an atom, the lowest one first. -/
def value (data : List (BitVec 64)) : Nat := data.foldr (fun w acc => w.toNat + 2 ^ 64 * acc) 0

structure Heap where
  object : Nat → Option Object
  mug : Nat → Nat

namespace Heap

/-- The word stands for the noun. -/
inductive Denotes (heap : Heap) : Word → Noun → Prop where
  | direct (data : BitVec 63) : Denotes heap (.direct data) (.atom data.toNat)
  | indirect (form : Form) {ptr : Nat} {data : List (BitVec 64)}
      (hobject : heap.object ptr = some (.atom data)) (hlast : data.getLast? ≠ some 0)
      (hlarge : 2 ^ 63 ≤ value data) :
      Denotes heap (.allocated .indirect form ptr) (.atom (value data))
  | cell (form : Form) {ptr : Nat} {head tail : Word} {n m : Noun}
      (hobject : heap.object ptr = some (.cell head tail)) (hhead : Denotes heap head n)
      (htail : Denotes heap tail m) :
      Denotes heap (.allocated .cell form ptr) (.cell n m)

/-- `get_cached_mug`. -/
def getCachedMug (heap : Heap) (ptr : Nat) : Option Nat :=
  let bottom := heap.mug ptr % 2 ^ 31
  if 0 < bottom then some bottom else none

/-- `set_mug`. -/
def setMug (heap : Heap) (ptr mug : Nat) : Heap :=
  { heap with mug := fun p => if p = ptr then mug else heap.mug p }

variable {heap : Heap}

@[simp] theorem object_setMug (ptr mug : Nat) : (heap.setMug ptr mug).object = heap.object := rfl

@[simp] theorem getCachedMug_setMug_self {ptr mug : Nat} (hpos : 0 < mug) (hlt : mug < 2 ^ 31) :
    (heap.setMug ptr mug).getCachedMug ptr = some mug := by
  simp only [getCachedMug, setMug, if_true, Nat.mod_eq_of_lt hlt, hpos]

theorem getCachedMug_setMug_of_ne {ptr mug p : Nat} (h : p ≠ ptr) :
    (heap.setMug ptr mug).getCachedMug p = heap.getCachedMug p := by
  simp [getCachedMug, setMug, h]

variable {n m : Noun} {w : Word}

/-- What a word stands for depends on the data alone. -/
theorem Denotes.of_object_eq {heap' : Heap} (h : heap.Denotes w n)
    (heq : heap'.object = heap.object) : heap'.Denotes w n := by
  induction h with
  | direct data => exact .direct data
  | indirect form hobject hlast hlarge => exact .indirect form (heq ▸ hobject) hlast hlarge
  | cell form hobject _ _ hhead htail => exact .cell form (heq ▸ hobject) hhead htail

/-- The words for an atom. -/
theorem Denotes.atom_cases {a : Nat} (h : heap.Denotes w (.atom a)) :
    (∃ data, w = .direct data ∧ data.toNat = a) ∨
      ∃ form ptr data, w = .allocated .indirect form ptr ∧ heap.object ptr = some (.atom data) ∧
        data.getLast? ≠ some 0 ∧ 2 ^ 63 ≤ a ∧ value data = a := by
  cases h with
  | direct data => exact .inl ⟨data, rfl, rfl⟩
  | indirect form hobject hlast hlarge => exact .inr ⟨form, _, _, rfl, hobject, hlast, hlarge, rfl⟩

/-- The words for a cell. -/
theorem Denotes.cell_cases (h : heap.Denotes w (.cell n m)) :
    ∃ form ptr head tail, w = .allocated .cell form ptr ∧
      heap.object ptr = some (.cell head tail) ∧ heap.Denotes head n ∧ heap.Denotes tail m := by
  cases h with
  | cell form hobject hhead htail => exact ⟨form, _, _, _, rfl, hobject, hhead, htail⟩

theorem Denotes.fields {kind : Kind} {form : Form} {ptr : Nat}
    (h : heap.Denotes (.allocated kind form ptr) (.cell n m)) :
    ∃ head tail, heap.object ptr = some (.cell head tail) ∧ heap.Denotes head n ∧
      heap.Denotes tail m := by
  cases h with
  | cell _ hobject hhead htail => exact ⟨_, _, hobject, hhead, htail⟩

/-- A word stands for one noun. -/
theorem Denotes.unique (hn : heap.Denotes w n) (hm : heap.Denotes w m) : n = m := by
  induction hn generalizing m with
  | direct data =>
    cases hm
    rfl
  | indirect form hobject =>
    cases hm with
    | indirect _ hobject' =>
      cases hobject.symm.trans hobject'
      rfl
  | cell form hobject _ _ ihh iht =>
    cases hm with
    | cell _ hobject' hh ht =>
      cases hobject.symm.trans hobject'
      rw [ihh hh, iht ht]

/-- Two references to one object stand for the same noun. -/
theorem Denotes.unique_of_ptr {kind kind' : Kind} {form form' : Form} {ptr : Nat}
    (hn : heap.Denotes (.allocated kind form ptr) n)
    (hm : heap.Denotes (.allocated kind' form' ptr) m) : n = m := by
  cases hn with
  | indirect _ hobject =>
    cases hm with
    | indirect _ hobject' =>
      cases hobject.symm.trans hobject'
      rfl
    | cell _ hobject' => cases hobject.symm.trans hobject'
  | cell _ hobject hhead htail =>
    cases hm with
    | indirect _ hobject' => cases hobject.symm.trans hobject'
    | cell _ hobject' hhead' htail' =>
      cases hobject.symm.trans hobject'
      rw [hhead.unique hhead', htail.unique htail']

end Heap

end Nockchain.Mem
