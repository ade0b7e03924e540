import Nockchain.Noun
import Nockchain.Lib.Bits
import Nockchain.Lib.Recursion

/-!
# `Nockchain.Serialization.Jam`: the encoder of `serialization.rs`

`jam` writes a noun into a bit buffer that starts with eight words and is
doubled whenever the next write does not fit. The nouns still to be written
wait on a stack; `backref_map` remembers the cursor at which each noun was
first written, and a noun met again is written as a reference to that cursor,
unless it is an atom that is no longer than the reference.

The buffer is the number its words hold, with the number of words beside it.
The atom and the slice of the source's `JamState` are two views of that one
buffer. Memory is unbounded, so a buffer can always be doubled, and the cursor
is a `Nat`: whoever needs it to be a `usize` says so. The source's `loop`s
carry a count of turns, chosen large enough that it never ends a loop
(`Nockchain.Proofs.Serialization.RoundTrip`).
-/

set_option autoImplicit false

namespace Nockchain.Serialization

open Lib

/-- `met0_usize` and `met0_u64_to_usize`: the position of the last one bit,
plus one. -/
def met0 (atom : Nat) : Nat := width atom

structure JamState where
  cursor : Nat
  /-- the buffer's size in 64-bit words -/
  size : Nat
  /-- what the buffer holds -/
  slice : Nat

namespace JamState

/-- `slice.len()` -/
def len (state : JamState) : Nat := 64 * state.size

/-- `slice.set(index, value)` -/
def set (state : JamState) (index : Nat) (value : Bool) : JamState :=
  { state with slice := splice state.slice index 1 value.toNat }

end JamState

/-- `double_atom_size`: a zeroed buffer of twice the size, with the bits
written so far copied into it. -/
def doubleAtomSize (state : JamState) : JamState :=
  { state with
    size := state.size + state.size
    slice := splice 0 0 state.cursor (cut state.slice 0 state.cursor) }

/-- `mat`: write an atom's length and value at the cursor. `none` is `Err(())`:
the buffer is too short, and nothing was written. -/
def mat (state : JamState) (atom : Nat) : Option JamState :=
  let bAtomSize := met0 atom
  if bAtomSize = 0 then
    if state.cursor + 1 > state.len then none
    else some { state.set state.cursor true with cursor := state.cursor + 1 }
  else
    let cBSize := met0 bAtomSize
    if state.cursor + cBSize + cBSize + bAtomSize > state.len then none
    else
      -- a 0 bit for each bit in the atom size, and a terminating 1 bit
      let zeros := splice state.slice state.cursor cBSize 0
      let unary := splice zeros (state.cursor + cBSize) 1 1
      -- the atom size without its most significant 1, then the atom
      let sized := splice unary (state.cursor + cBSize + 1) (cBSize - 1) bAtomSize
      let value := splice sized (state.cursor + cBSize + cBSize) bAtomSize atom
      some { state with
        slice := value
        cursor := state.cursor + cBSize + cBSize + bAtomSize }

/-- `loop { if state.cursor + n > state.slice.len() { double_atom_size(..) } else { break } }` -/
def reserve (n : Nat) : Nat → JamState → Option JamState
  | 0, _ => none
  | turns + 1, state =>
    if state.cursor + n > state.len then reserve n turns (doubleAtomSize state)
    else some state

/-- `loop { if let Ok(()) = mat(..) { break } else { double_atom_size(..) } }` -/
def matLoop (atom : Nat) : Nat → JamState → Option JamState
  | 0, _ => none
  | turns + 1, state =>
    match mat state atom with
    | some state => some state
    | none => matLoop atom turns (doubleAtomSize state)

/-- The number of bits `mat` writes for an atom. -/
def matSize (atom : Nat) : Nat := if atom = 0 then 1 else 2 * met0 (met0 atom) + met0 atom

/-- `jam_atom`: the tag `0`, then the atom. -/
def jamAtom (state : JamState) (atom : Nat) : Option JamState := do
  let state ← reserve 1 2 state
  let state := { state.set state.cursor false with cursor := state.cursor + 1 }
  matLoop atom (matSize atom + 1) state

/-- `jam_cell`: the tag `10`. -/
def jamCell (state : JamState) : Option JamState := do
  let state ← reserve 2 3 state
  let state := (state.set state.cursor true).set (state.cursor + 1) false
  some { state with cursor := state.cursor + 2 }

/-- `jam_backref`: the tag `11`, then the cursor referred to. -/
def jamBackref (state : JamState) (backref : Nat) : Option JamState := do
  let state ← reserve 2 3 state
  let state := (state.set state.cursor true).set (state.cursor + 1) true
  matLoop backref (matSize backref + 1) { state with cursor := state.cursor + 2 }

/-- The stack of nouns to write, the map of nouns written, and the buffer. -/
structure JamRun where
  stack : List Noun
  backrefMap : Noun → Option Nat
  state : JamState

/-- One turn of the loop `'jam`, for the noun on top of the stack. -/
def jamTurn (noun : Noun) (stack : List Noun) (backrefMap : Noun → Option Nat)
    (state : JamState) : Option JamRun :=
  match backrefMap noun with
  | some backref => do
    let state ← match noun with
      | .atom atom =>
        if met0 atom ≤ met0 backref then jamAtom state atom else jamBackref state backref
      | .cell _ _ => jamBackref state backref
    some { stack, backrefMap, state }
  | none => do
    let backrefMap := Function.update backrefMap noun (some state.cursor)
    match noun with
    | .atom atom =>
      let state ← jamAtom state atom
      some { stack, backrefMap, state }
    | .cell head tail =>
      let state ← jamCell state
      some { stack := head :: tail :: stack, backrefMap, state }

/-- The loop `'jam`. -/
def jamLoop : Nat → JamRun → Option JamState
  | _, { stack := [], backrefMap := _, state } => some state
  | 0, { stack := _ :: _, backrefMap := _, state := _ } => none
  | turns + 1, { stack := noun :: stack, backrefMap, state } => do
    let run ← jamTurn noun stack backrefMap state
    jamLoop turns run

/-- The number of atoms and cells of a noun. -/
def nodes : Noun → Nat
  | .atom _ => 1
  | .cell head tail => nodes head + nodes tail + 1

/-- `jam`. The result is the number the buffer holds: `normalize_as_atom` drops
its leading zero words. -/
def jam (noun : Noun) : Option Nat := do
  let run : JamRun :=
    { stack := [noun]
      backrefMap := fun _ => none
      state := { cursor := 0, size := 8, slice := 0 } }
  let state ← jamLoop (nodes noun) run
  some state.slice

/-!
## The bit format

The format `jam` writes, described by itself: what one length-prefixed field
is (`field`), and what reading a whole noun off a bit string does (`scanBody`).
The scan is more lenient than either decoder. It follows a back-reference to any
position at which a noun has been started, and it accepts a field of any length,
with zeros past the end. On the way it marks what the two decoders treat
differently from this:

* `overrun`: a field the fixed-width reader cannot hold, or that ends past the
  end of the buffer where the reader slices it;
* `long`: a back-reference of more than 64 bits;
* `cyclic`: a back-reference to a cell that is still being read.

`Plain` is the condition on an atom under which these marks do not matter.
-/

/-! ### Fields -/

/-- A length-prefixed number at a position: `zeros` zero bits and a one, the
`zeros - 1` low bits of its size, and `size` bits of value. -/
structure Field where
  zeros : Nat
  size : Nat
  value : Nat
  /-- the position of the value -/
  start : Nat
deriving DecidableEq, Repr

/-- The position after the field. -/
def Field.stop (f : Field) : Nat := f.start + f.size

/-- The field of `a` at position `pos`, if a one bit follows at all. -/
def field (a pos : Nat) : Option Field :=
  match firstOne (a >>> pos) (width a - pos) with
  | none => none
  | some 0 => some { zeros := 0, size := 0, value := 0, start := pos + 1 }
  | some (k + 1) =>
    let size := 2 ^ k + cut a (pos + k + 2) k
    let start := pos + 2 * (k + 1)
    some { zeros := k + 1, size, value := cut a start size, start }

/-- The size of the field does not fit in a word, or lies partly outside a
buffer of `len` bits. -/
def Field.sizeOverruns (f : Field) (len : Nat) : Bool :=
  f.zeros ≠ 0 && (64 < f.zeros || len < f.start || wordLimit ≤ f.start)

/-- The field cannot be read as an atom. -/
def Field.atomOverruns (f : Field) (len : Nat) : Bool :=
  f.sizeOverruns len || wordLimit ≤ f.stop

/-- The field is too wide to be read as a back-reference. -/
def Field.isLong (f : Field) : Bool := 64 < f.size

/-- The field cannot be read as a back-reference. -/
def Field.backrefOverruns (f : Field) (len : Nat) : Bool :=
  f.sizeOverruns len || (f.size ≠ 0 && !f.isLong && len < f.stop)

/-! ### Nouns -/

/-- What the scan has seen. `started` has every position at which a noun was
started, with the noun once it is known. -/
structure Scan where
  started : Nat → Option (Option Noun)
  overrun : Bool
  long : Bool
  cyclic : Bool

namespace Scan

/-- Nothing read yet. -/
def start : Scan := { started := fun _ => none, overrun := false, long := false, cyclic := false }

/-- The noun at `pos` is `n`; `none` while it is being read. -/
def enter (st : Scan) (pos : Nat) (n : Option Noun) : Scan :=
  { st with started := Function.update st.started pos (some n) }

/-- A field was read as an atom. -/
def readAtom (st : Scan) (len : Nat) (f : Field) : Scan :=
  { st with overrun := st.overrun || (!st.long && f.atomOverruns len) }

/-- A field was read as a back-reference. Only what comes before the first long
one counts as an overrun. -/
def readBackref (st : Scan) (len : Nat) (f : Field) : Scan :=
  { st with
    overrun := st.overrun || (!st.long && f.backrefOverruns len)
    long := st.long || f.isLong }

/-- A back-reference was followed to what is known there. -/
def follow (st : Scan) (n : Option Noun) : Scan :=
  { st with cyclic := st.cyclic || n.isNone }

end Scan

/-- Reading the noun at a position, unfolded once. The answer is the position
after it and the noun, if it is one. -/
def scanBody (a len : Nat) :
    Nat × Scan → Prog (Nat × Scan) (Nat × Option Noun × Scan) Scan
  | (pos, st) =>
    if a.testBit pos then
      if a.testBit (pos + 1) then
        match field a (pos + 2) with
        | none => .fail st
        | some f =>
          match st.started f.value with
          | none => .fail (st.readBackref len f)
          | some n => .pure (f.stop, n, (st.readBackref len f).follow n)
      else
        .call (pos + 2, st.enter pos none) fun h =>
        .call (h.1, h.2.2) fun t =>
        let n := h.2.1.bind fun x => t.2.1.map (Noun.cell x)
        .pure (t.1, n, t.2.2.enter pos n)
    else
      match field a (pos + 1) with
      | none => .fail st
      | some f =>
        let n := some (Noun.atom f.value)
        .pure (f.stop, n, (st.readAtom len f).enter pos n)

/-- `Scans a len pos st o`: reading the noun at `pos` has the outcome `o`. -/
def Scans (a len pos : Nat) (st : Scan) : Except Scan (Nat × Option Noun × Scan) → Prop :=
  Evals (scanBody a len) (scanBody a len (pos, st))

/-- The outcome of a scan does not tell the two decoders apart: no overrun, and
if the whole noun was read, a long back-reference exactly if a cyclic one. -/
def Harmless : Except Scan (Nat × Option Noun × Scan) → Prop
  | .ok (_, _, st) => st.overrun = false ∧ st.long = st.cyclic
  | .error st => st.overrun = false

/-- The atom `a`, held in a buffer of `len` bits, scans harmlessly. -/
def Plain (a len : Nat) : Prop := ∃ o, Scans a len 0 .start o ∧ Harmless o

end Nockchain.Serialization
