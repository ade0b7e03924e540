import Nockchain.Lib.Bits
import Nockchain.Mem.Heap

/-!
# `Nockchain.Mem.Mug`: the short hash of a noun

Three functions compute the mug of a noun: `++mug` of `hoon-138.hoon` by recursion,
`mug_u32` of the virtual machine and `slab_mug` of the slabs by a loop with a stack
of its own, which stores the mugs that it finds in the objects.

All of them hash an atom, or the mugs of the head and the tail side by side, with
`murmur3`, fold the answer to 31 bits and try again where that is zero. The Rust
library function `murmur3_32_of_slice` is taken to be `++muk`.
-/

set_option autoImplicit false

namespace Nockchain.Mem

open Lib

/-! ### Hoon -/

namespace Hoon

/-- `++met`: the blocks of `2 ^ bloq` bits in an atom. -/
def met (bloq a : Nat) : Nat := (width a + (2 ^ bloq - 1)) / 2 ^ bloq

/-- `++rip`. -/
def rip (bloq a : Nat) : List Nat :=
  (List.range (met bloq a)).map fun i => cut a (i * 2 ^ bloq) (2 ^ bloq)

/-- `++cat`. -/
def cat (bloq b c : Nat) : Nat := c <<< (2 ^ bloq * met bloq b) + b

/-- `++sit` of `(fe 5)`. -/
def sit (b : Nat) : Nat := b % 2 ^ 32

/-- `++rol` of `(fe 5)`, at bloq `0`. -/
def rol (c d : Nat) : Nat := sit (sit d <<< c ||| sit d >>> (32 - c))

/-- What `++muk` does to a block before it is mixed in. -/
def scramble (k1 : Nat) : Nat := sit (rol 15 (sit (k1 * 0xcc9e2d51)) * 0x1b873593)

/-- `++fmix32`. -/
def fmix32 (h : Nat) : Nat :=
  let h := h ^^^ h >>> 16
  let h := sit (h * 0x85ebca6b)
  let h := h ^^^ h >>> 13
  let h := sit (h * 0xc2b2ae35)
  h ^^^ h >>> 16

/-- `++muk`: `murmur3` of the lower `len` bytes of an atom that has no more. -/
def muk (syd len key : Nat) : Nat :=
  let data := rip 3 key ++ List.replicate (len - met 3 key) 0
  let nblocks := len / 4
  let blocks := rip 5 key
  let h1 := (List.range nblocks).foldl
    (fun hi i => sit (sit (rol 13 (hi ^^^ scramble (blocks.getD i 0)) * 5) + 0xe6546b64)) (sit syd)
  let tail := data.drop (4 * nblocks)
  let h1 := match len % 4 with
    | 3 => h1 ^^^ scramble (tail.getD 2 0 <<< 16 ^^^ tail.getD 1 0 <<< 8 ^^^ tail.getD 0 0)
    | 2 => h1 ^^^ scramble (tail.getD 1 0 <<< 8 ^^^ tail.getD 0 0)
    | 1 => h1 ^^^ scramble (tail.getD 0 0)
    | _ => h1
  fmix32 (h1 ^^^ len)

/-- The hash folded to 31 bits. -/
def ham (haz : Nat) : Nat := haz >>> 31 ^^^ haz % 2 ^ 31

/-- The loop of `++mum`, with the number of tries that are left. -/
def mumLoop (fal key : Nat) : Nat → Nat → Nat
  | 0, _ => fal
  | tries + 1, syd =>
    let ham := ham (muk syd (met 3 key) key)
    if ham = 0 then mumLoop fal key tries (syd + 1) else ham

/-- `++mum`. -/
def mum (syd fal key : Nat) : Nat := mumLoop fal key 8 syd

/-- `++mug`. -/
def mug : Noun → Nat
  | .atom a => mum 0xcafebabe 0x7fff a
  | .cell h t => mum 0xdeadbeef 0xfffe (cat 5 (mug h) (mug t))

end Hoon

/-! ### Atoms -/

/-- `Atom`, resolved: the word itself, or the words in memory. -/
inductive Atom where
  | direct (data : BitVec 63)
  | indirect (data : List (BitVec 64))

/-- The value of an atom, `as_ubig`. -/
def Atom.value : Atom → Nat
  | .direct data => data.toNat
  | .indirect data => Mem.value data

/-- `leading_zeros`. -/
def leadingZeros (w : BitVec 64) : Nat := 64 - width w.toNat

/-- `met3_usize`. -/
def met3Usize : Atom → Nat
  | .direct data => (64 - leadingZeros (data.setWidth 64) + 7) >>> 3
  | .indirect data =>
    let size := data.length
    let lastWord := data.getLastD 0
    (size - 1) <<< 3 + (64 - leadingZeros lastWord + 7) >>> 3

/-- The bytes of a word, the lowest one first. -/
def wordBytes (w : BitVec 64) : List (BitVec 8) :=
  (List.range 8).map fun i => .ofNat 8 (w.toNat >>> (8 * i))

/-- `as_ne_bytes`. -/
def asNeBytes : Atom → List (BitVec 8)
  | .direct data => wordBytes (data.setWidth 64)
  | .indirect data => data.flatMap wordBytes

/-- The atom that bytes make, the lowest one first. -/
def bytesValue (bytes : List (BitVec 8)) : Nat :=
  bytes.foldr (fun b acc => b.toNat + 2 ^ 8 * acc) 0

/-- `murmur3_32_of_slice`. -/
def murmur3 (bytes : List (BitVec 8)) (syd : Nat) : Nat :=
  Hoon.muk syd bytes.length (bytesValue bytes)

/-- `muk_u32`. -/
def mukU32 (syd len : Nat) (key : Atom) : Nat := murmur3 ((asNeBytes key).take len) syd

/-- The loop of `mum_u32`, with the number of tries that are left. -/
def mumLoop (syd fal : Nat) (key : Atom) : Nat → Nat
  | 0 => fal
  | tries + 1 =>
    let haz := mukU32 syd (met3Usize key) key
    let ham := haz >>> 31 ^^^ haz % 2 ^ 31
    if ham = 0 then mumLoop syd fal key tries else ham

/-- `mum_u32`. -/
def mumU32 (syd fal : Nat) (key : Atom) : Nat := mumLoop syd fal key 8

/-- `calc_atom_mug_u32`. -/
def calcAtomMug (atom : Atom) : Nat := mumU32 0xcafebabe 0x7fff atom

/-- `calc_cell_mug_u32`. -/
def calcCellMug (headMug tailMug : Nat) : Nat :=
  mumU32 0xdeadbeef 0xfffe (.direct (.ofNat 63 (headMug ||| tailMug <<< 32)))

/-! ### Atoms from bytes -/

/-- `new_raw_mut_bytes`, filled: bytes in `n` words that were zeroed. -/
def byteBuffer (bytes : List (BitVec 8)) : Nat → List (BitVec 64)
  | 0 => []
  | n + 1 => .ofNat 64 (bytesValue (bytes.take 8)) :: byteBuffer (bytes.drop 8) n

/-- The loop of `normalize_stack`, on the words from the uppermost one down. -/
def normalizeLoop : List (BitVec 64) → List (BitVec 64)
  | w :: v :: low => if w ≠ 0 then w :: v :: low else normalizeLoop (v :: low)
  | data => data

/-- `normalize_stack`. Without words the index of the last one underflows, and where that does not
panic the loop reads in front of the buffer. -/
def normalizeStack (data : List (BitVec 64)) : Option (List (BitVec 64)) :=
  if data = [] then none else some (normalizeLoop data.reverse).reverse

/-- `normalize_as_atom_stack`. -/
def normalizeAsAtomStack (data : List (BitVec 64)) : Option Atom :=
  (normalizeStack data).map fun
    | [w] => if w.toNat ≤ 2 ^ 63 - 1 then .direct (w.setWidth 63) else .indirect [w]
    | data => .indirect data

/-- `from_bytes`, of an atom. -/
def fromBytes (bytes : List (BitVec 8)) : Option Atom :=
  (normalizeStack (byteBuffer bytes ((bytes.length + 7) >>> 3))).bind normalizeAsAtomStack

/-! ### Nouns in memory -/

namespace Heap

/-- `get_mug`. -/
def getMug (heap : Heap) : Word → Option Nat
  | .direct data => some (calcAtomMug (.direct data))
  | .allocated _ _ ptr => heap.getCachedMug ptr

/-- A turn of the loop of `mug_u32`, with the noun on top of the stack. `none` where the memory does
not hold what the tag says. -/
def mugTurn (heap : Heap) (noun : Word) (stack : List Word) : Option (Heap × List Word) :=
  match noun with
  | .direct _ => some (heap, stack)
  | .allocated kind _ ptr =>
    match heap.getCachedMug ptr with
    | some _ => some (heap, stack)
    | none =>
      match kind, heap.object ptr with
      | .indirect, some (.atom data) =>
        some (heap.setMug ptr (calcAtomMug (.indirect data)), stack)
      | .cell, some (.cell head tail) =>
        match heap.getMug head, heap.getMug tail with
        | some headMug, some tailMug =>
          some (heap.setMug ptr (calcCellMug headMug tailMug), stack)
        | _, _ => some (heap, head :: tail :: noun :: stack)
      | _, _ => none

/-- The loop of `mug_u32`. -/
def mugLoop : Nat → Heap → List Word → Option Heap
  | 0, _, _ => none
  | _ + 1, heap, [] => some heap
  | fuel + 1, heap, noun :: stack => do
    let (heap, stack) ← heap.mugTurn noun stack
    mugLoop fuel heap stack

/-- `mug_u32`, with the mugs that it has stored. -/
def mugU32 (fuel : Nat) (heap : Heap) (noun : Word) : Option (Heap × Nat) :=
  match heap.getMug noun with
  | some mug => some (heap, mug)
  | none => do
    let heap ← mugLoop fuel heap [noun]
    return (heap, ← heap.getMug noun)

/-- A turn of the loop of `slab_mug`, with the noun popped. -/
def slabTurn (heap : Heap) (noun : Word) (stack : List Word) : Option (Heap × List Word) :=
  match noun with
  | .direct _ => some (heap, stack)
  | .allocated kind _ ptr =>
    if heap.getMug noun = none then
      match kind, heap.object ptr with
      | .indirect, some (.atom data) =>
        some (heap.setMug ptr (calcAtomMug (.indirect data)), stack)
      | .cell, some (.cell head tail) =>
        match heap.getMug head, heap.getMug tail with
        | some headMug, some tailMug =>
          some (heap.setMug ptr (calcCellMug headMug tailMug), stack)
        | _, _ => some (heap, head :: tail :: noun :: stack)
      | _, _ => none
    else some (heap, stack)

/-- The loop of `slab_mug`. -/
def slabLoop : Nat → Heap → List Word → Option Heap
  | 0, _, _ => none
  | _ + 1, heap, [] => some heap
  | fuel + 1, heap, noun :: stack => do
    let (heap, stack) ← heap.slabTurn noun stack
    slabLoop fuel heap stack

/-- `slab_mug`, with the mugs that it has stored. -/
def slabMug (fuel : Nat) (heap : Heap) (noun : Word) : Option (Heap × Nat) := do
  let heap ← slabLoop fuel heap [noun]
  return (heap, ← heap.getMug noun)

end Heap

end Nockchain.Mem
