import Nockchain.Lib.Bits
import Nockchain.Vm.Interpreter
import Nockchain.Lib.Recursion

/-!
# `Nockchain.Serialization.Cue`: the decoder of `serialization.rs`

`cue` reads a noun off a bit buffer without recursion. Its stack holds the
places still to be filled: a `DestinationPointer` is a place whose noun comes
next in the buffer, a `BackRef` is a cell whose two halves have been read.
Cells are allocated before their halves are known, so the nouns under
construction live in memory, and a noun is a word: an atom, or the address of a
cell. `Denotes` says which noun a word stands for once memory is filled in; a
cyclic structure stands for none.

A function of the source can return, fail with an `Error`, or panic. Three
things panic here: a slice index past the end of its slice, a
`copy_from_bitslice` between slices of different lengths, and arithmetic that
overflows on a length read from the buffer. The models are of a build with
overflow checks; one without them wraps in the last case. The buffer itself fits in memory, so positions
inside it are plain `Nat`s; memory is unbounded, so an atom of any length can be
allocated.
-/

set_option autoImplicit false

namespace Nockchain.Serialization

open Lib
open Vm (Error bailExit bailFail)

/-! ### Outcomes -/

/-- What a Rust function returning `Result<_, Error>` can do. -/
inductive Outcome (α : Type) where
  | ok (a : α)
  | err (e : Error)
  | panic

namespace Outcome

variable {α β : Type}

/-- The `?` operator. -/
def bind (o : Outcome α) (f : α → Outcome β) : Outcome β :=
  match o with
  | ok a => f a
  | err e => err e
  | panic => panic

@[simp] theorem bind_ok (a : α) (f : α → Outcome β) : (ok a).bind f = f a := rfl

@[simp] theorem bind_err (e : Error) (f : α → Outcome β) : (err e).bind f = err e := rfl

@[simp] theorem bind_panic (f : α → Outcome β) : (panic : Outcome α).bind f = panic := rfl

end Outcome

/-! ### Reading the buffer -/

/-- A slice of bits: the number it holds, and its length. -/
structure BitSlice where
  bits : Nat
  len : Nat

namespace BitSlice

/-- `&slice[start..stop]`, for a range inside the slice. -/
def range (slice : BitSlice) (start stop : Nat) : BitSlice :=
  { bits := cut slice.bits start (stop - start), len := stop - start }

/-- `BitSlice::empty()` -/
def empty : BitSlice := { bits := 0, len := 0 }

/-- `first_one` -/
def firstOne (slice : BitSlice) : Option Nat := Lib.firstOne slice.bits slice.len

end BitSlice

/-- `let mut x: u64 = 0; from_element_mut(&mut x)[0..n].copy_from_bitslice(src)` -/
def copyToWord (n : Nat) (src : BitSlice) : Outcome Nat :=
  if n ≤ 64 ∧ src.len = n then .ok src.bits else .panic

/-- `next_bit`: at the end of the slice it reads `false` and stays put. -/
def nextBit (cursor : Nat) (slice : BitSlice) : Bool × Nat :=
  if slice.len > cursor then (slice.bits.testBit cursor, cursor + 1) else (false, cursor)

/-- `next_up_to_n_bits` -/
def nextUpToNBits (cursor : Nat) (slice : BitSlice) (n : Nat) : Outcome (BitSlice × Nat) :=
  if wordLimit ≤ cursor + n then .panic
  else
    let res :=
      if slice.len ≥ cursor + n then slice.range cursor (cursor + n)
      else if slice.len > cursor then slice.range cursor slice.len
      else BitSlice.empty
    .ok (res, cursor + n)

/-- `rest_bits` -/
def restBits (cursor : Nat) (slice : BitSlice) : BitSlice :=
  if slice.len > cursor then slice.range cursor slice.len else BitSlice.empty

/-- `get_size`: the size in bits of an encoded atom or back-reference. -/
def getSize (cursor : Nat) (buffer : BitSlice) : Outcome (Nat × Nat) :=
  match (restBits cursor buffer).firstOne with
  | none => .err bailExit
  | some bitsize =>
    if bitsize = 0 then .ok (0, cursor + 1)
    else
      (nextUpToNBits (cursor + (bitsize + 1)) buffer (bitsize - 1)).bind fun (sizeBits, cursor) =>
      (copyToWord (bitsize - 1) sizeBits).bind fun size =>
      -- `1 << (bitsize - 1)` overflows from 64 bits on
      if 64 ≤ bitsize - 1 then .panic
      else .ok (size + 2 ^ (bitsize - 1), cursor)

/-- `rub_atom_internal`. Direct and indirect atoms differ only in where their
bits are stored; bits past the end of the buffer stay zero. -/
def rubAtom (cursor : Nat) (buffer : BitSlice) : Outcome (Nat × Nat) :=
  (getSize cursor buffer).bind fun (size, cursor) =>
  (nextUpToNBits cursor buffer size).bind fun (bits, cursor) =>
  if size = 0 then .ok (0, cursor) else .ok (bits.bits, cursor)

/-- `rub_backref` -/
def rubBackref (cursor : Nat) (buffer : BitSlice) : Outcome (Nat × Nat) :=
  (getSize cursor buffer).bind fun (size, cursor) =>
  if size = 0 then .ok (0, cursor)
  else if size ≤ 64 then
    -- `&buffer[*cursor..*cursor + size]`
    if cursor + size ≤ buffer.len then
      (copyToWord size (buffer.range cursor (cursor + size))).bind fun backref =>
      .ok (backref, cursor + size)
    else .panic
  else .err bailFail

/-! ### Memory -/

/-- A noun as a machine word: an atom, or the address of a cell. -/
inductive Value where
  | atom (a : Nat)
  | cell (address : Nat)
deriving DecidableEq, Repr

/-- A `*mut Noun`: the local variable `result`, or one half of a cell. -/
inductive Pointer where
  | result
  | head (address : Nat)
  | tail (address : Nat)
deriving DecidableEq, Repr

/-- What each pointer points to; `none` is memory not written yet. -/
abbrev Memory := Pointer → Option Value

/-- `Denotes memory v n`: in this memory the word `v` is the noun `n`. -/
inductive Denotes (memory : Memory) : Value → Noun → Prop where
  | atom (a : Nat) : Denotes memory (.atom a) (.atom a)
  | cell {address : Nat} {v w : Value} {h t : Noun} :
      memory (.head address) = some v → memory (.tail address) = some w →
      Denotes memory v h → Denotes memory w t → Denotes memory (.cell address) (.cell h t)

/-! ### The loop -/

inductive CueStackEntry where
  | destinationPointer (dest : Pointer)
  | backRef (backref : Nat) (noun : Pointer)

structure CueState where
  cursor : Nat
  memory : Memory
  /-- the first address no cell has been allocated at -/
  free : Nat
  backrefMap : Nat → Option Value
  stack : List CueStackEntry

namespace CueState

/-- `*dest = v` -/
def write (s : CueState) (dest : Pointer) (v : Value) : CueState :=
  { s with memory := Function.update s.memory dest (some v) }

/-- `backref_map.insert(backref, v)` -/
def insert (s : CueState) (backref : Nat) (v : Option Value) : CueState :=
  { s with backrefMap := Function.update s.backrefMap backref v }

end CueState

/-- The tag `11`: the noun is the one the back-reference names. -/
def cueBackref (buffer : BitSlice) (dest : Pointer) (s : CueState) : Outcome CueState :=
  (rubBackref s.cursor buffer).bind fun (backref, cursor) =>
  match s.backrefMap backref with
  | none => .err bailExit
  | some v => .ok ({ s with cursor }.write dest v)

/-- The tag `10`: allocate a cell, and read its head and then its tail. -/
def cueCell (dest : Pointer) (s : CueState) : CueState :=
  let address := s.free
  let s := ({ s with free := address + 1 }.write dest (.cell address)).insert (s.cursor - 2)
    (some (.cell address))
  { s with
    stack := .destinationPointer (.head address) :: .destinationPointer (.tail address) ::
      .backRef (s.cursor - 2) dest :: s.stack }

/-- The tag `0`: an atom. -/
def cueAtom (buffer : BitSlice) (dest : Pointer) (s : CueState) : Outcome CueState :=
  let backref := s.cursor - 1
  (rubAtom s.cursor buffer).bind fun (atom, cursor) =>
  .ok (({ s with cursor }.write dest (.atom atom)).insert backref (some (.atom atom)))

/-- One turn of the loop, for an entry popped off the stack. -/
def cueTurn (buffer : BitSlice) (entry : CueStackEntry) (s : CueState) : Outcome CueState :=
  match entry with
  | .destinationPointer dest =>
    let (tag, cursor) := nextBit s.cursor buffer
    if tag then
      let (tag, cursor) := nextBit cursor buffer
      if tag then cueBackref buffer dest { s with cursor }
      else .ok (cueCell dest { s with cursor })
    else cueAtom buffer dest { s with cursor }
  | .backRef backref noun => .ok (s.insert backref (s.memory noun))

/-- The loop of `cue_bitslice_with_mode`. `none` is out of turns; `ok` carries
the memory the result lives in. -/
def cueLoop (buffer : BitSlice) : Nat → CueState → Option (Outcome (Memory × Option Value))
  | 0, _ => none
  | turns + 1, s =>
    match s.stack with
    | [] => some (.ok (s.memory, s.memory .result))
    | entry :: stack =>
      match cueTurn buffer entry { s with stack } with
      | .ok s => cueLoop buffer turns s
      | .err e => some (.err e)
      | .panic => some .panic

/-- The state the loop starts in. -/
def CueState.start : CueState where
  cursor := 0
  memory := Function.update (fun _ => none) .result (some (.atom 0))
  free := 0
  backrefMap := fun _ => none
  stack := [.destinationPointer .result]

/-- `as_bitslice`: the bits of an atom's words. A direct atom is one word. -/
def asBitslice (atom : Nat) : BitSlice :=
  { bits := atom, len := 64 * max 1 ((width atom + 63) / 64) }

/-- `cue` -/
def cue (turns : Nat) (buffer : Nat) : Option (Outcome (Memory × Option Value)) :=
  cueLoop (asBitslice buffer) turns .start

/-- `cue` returns `Ok` with a noun that is `n`. -/
def CueOk (a : Nat) (n : Noun) : Prop :=
  ∃ turns memory v, cue turns a = some (.ok (memory, some v)) ∧ Denotes memory v n

/-- `cue` returns `Err`. -/
def CueErr (a : Nat) : Prop := ∃ turns e, cue turns a = some (.err e)

end Nockchain.Serialization

/-!
## `++cue` of `hoon-138.hoon`

The decoder the jet stands in for, with the arms it calls: `++bex`, `++end`,
`++rsh`, `++cut` and `++met` at bloq `0`, and `++rub`. A Hoon `?<`, `?>` or
`need` that fails crashes the computation; here it is `none`, or the failure of
a `Prog`. `++cue` calls itself twice for a cell, threading the map of decoded
nouns, so it is given by its unfolding `cueBody` and the recursion library says
what it computes.
-/

namespace Nockchain.Serialization.Hoon

open Lib

/-- `++bex`: binary exponent. -/
def bex : Nat → Nat
  | 0 => 1
  | a + 1 => 2 * bex a

/-- `++end` at bloq `0`. -/
def «end» (step b : Nat) : Nat := b % bex (bex 0 * step)

/-- `++rsh` at bloq `0`. -/
def rsh (step b : Nat) : Nat := b / bex (bex 0 * step)

/-- `++cut` at bloq `0`: `c` bits of `d` from position `b`. -/
def cut (b c d : Nat) : Nat := «end» c (rsh b d)

/-- The loop of `++met` at bloq `0`. The first argument bounds the turns; `b`
itself is always enough, since each turn halves it. -/
def metLoop : Nat → Nat → Nat → Nat
  | 0, _, c => c
  | turns + 1, b, c => if b = 0 then c else metLoop turns (rsh 1 b) (c + 1)

/-- `++met` at bloq `0`. -/
def met (b : Nat) : Nat := metLoop b b 0

/-- The loop of `++rub` that counts zeros. The first argument is how often the
assertion `?<  (gth c m)` still holds. -/
def rubLoop (a b : Nat) : Nat → Nat → Option Nat
  | 0, _ => none
  | turns + 1, c => if cut (a + c) 1 b = 0 then rubLoop a b turns (c + 1) else some c

/-- `++rub`: length-decode. The answer is the number of bits read, and the
atom. -/
def rub (a b : Nat) : Option (Nat × Nat) :=
  match rubLoop a b (met b + 1) 0 with
  | none => none
  | some c =>
    if c = 0 then some (1, 0)
    else
      let d := a + (c + 1)
      let e := bex (c - 1) + cut d (c - 1) b
      some ((c + c) + e, cut (d + (c - 1)) e b)

/-- The map `m` from positions to the nouns decoded there. -/
abbrev Decoded := Nat → Option Noun

/-- The trap of `++cue`, unfolded once: arguments `b` and `m`, answers
`[p q r]`. -/
def cueBody (a : Nat) : Nat × Decoded → Prog (Nat × Decoded) (Nat × Noun × Decoded) Unit
  | (b, m) =>
    if cut b 1 a = 0 then
      match rub (b + 1) a with
      | none => .fail ()
      | some (p, q) => .pure (p + 1, .atom q, Function.update m b (some (.atom q)))
    else
      let c := 2 + b
      if cut (b + 1) 1 a = 0 then
        .call (c, m) fun u =>
        .call (u.1 + c, u.2.2) fun v =>
        let w := Noun.cell u.2.1 v.2.1
        .pure (2 + (u.1 + v.1), w, Function.update v.2.2 b (some w))
      else
        match rub c a with
        | none => .fail ()
        | some (p, q) =>
          match m q with
          | none => .fail ()
          | some n => .pure (2 + p, n, m)

/-- The evaluation of `++cue` at an atom. -/
def CueEvals (a : Nat) : Except Unit (Nat × Noun × Decoded) → Prop :=
  Evals (cueBody a) (cueBody a (0, fun _ => none))

/-- `++cue` produces `n`. -/
def CueOk (a : Nat) (n : Noun) : Prop := ∃ p r, CueEvals a (.ok (p, n, r))

/-- `++cue` crashes. -/
def CueCrashes (a : Nat) : Prop := CueEvals a (.error ())

end Nockchain.Serialization.Hoon
