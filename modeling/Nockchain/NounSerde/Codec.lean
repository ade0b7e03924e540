import Nockchain.Lib.Radix
import Nockchain.Noun

/-!
# `Nockchain.NounSerde.Codec`: the built-in codecs of noun-serde

`NounEncode::to_noun` and `NounDecode::from_noun` for the built-in types, one pair
of definitions a type. A generic codec takes the codecs of its parts, so
`Vec<Option<u64>>` reads `vecFromNoun (optionFromNoun u64FromNoun)`.

An encoder returns `none` where the source panics or runs off a buffer; a decoder
returns an `Outcome`, which keeps `Err` and a panic apart.

Atoms are stored in 64-bit words, and two functions here depend on it:
`AtomHandle::as_ne_bytes` returns whole words (`asNeBytes`), and
`IndirectAtom::normalize_stack` starts from the last word, so that
`Atom::from_bytes` has no answer for the empty slice (`fromBytes`). In a debug
build the assertion on the size fails; without it `size - 1` wraps and the search
for the last nonzero word reads memory in front of the atom.
-/

set_option autoImplicit false

namespace Nockchain.NounSerde

open Nockchain.Lib

/-! ### Outcomes -/

/-- What a fallible Rust call comes to: a value, an error, or a panic. -/
inductive Outcome (ε α : Type) where
  | ok (a : α)
  | err (e : ε)
  | panic
deriving DecidableEq, Repr

namespace Outcome

variable {ε α β : Type}

instance : Monad (Outcome ε) where
  pure := .ok
  bind x f := match x with
    | .ok a => f a
    | .err e => .err e
    | .panic => .panic

instance : LawfulMonad (Outcome ε) :=
  LawfulMonad.mk' (Outcome ε) (fun x => by cases x <;> rfl) (fun _ _ => rfl)
    (fun x _ _ => by cases x <;> rfl)

@[simp] theorem pure_eq (a : α) : (pure a : Outcome ε α) = .ok a := rfl

@[simp] theorem ok_bind (a : α) (f : α → Outcome ε β) : (Outcome.ok a >>= f) = f a := rfl

@[simp] theorem err_bind (e : ε) (f : α → Outcome ε β) :
    ((.err e : Outcome ε α) >>= f) = .err e := rfl

@[simp] theorem panic_bind (f : α → Outcome ε β) : ((.panic : Outcome ε α) >>= f) = .panic := rfl

theorem bind_eq_ok {x : Outcome ε α} {f : α → Outcome ε β} {b : β} :
    (x >>= f) = .ok b ↔ ∃ a, x = .ok a ∧ f a = .ok b := by
  cases x <;> simp

theorem bind_eq_panic {x : Outcome ε α} {f : α → Outcome ε β} :
    (x >>= f) = .panic ↔ x = .panic ∨ ∃ a, x = .ok a ∧ f a = .panic := by
  cases x <;> simp

/-- `map_err`. -/
def mapErr {ε' : Type} (f : ε → ε') : Outcome ε α → Outcome ε' α
  | .ok a => .ok a
  | .err e => .err (f e)
  | .panic => .panic

end Outcome

/-- `nockvm::noun::Error`. -/
inductive NounError where
  | notAtom
  | notCell
  | notRepresentable
deriving DecidableEq, Repr

/-- The `Display` text of an error. -/
def NounError.text : NounError → String
  | .notAtom => "not an atom"
  | .notCell => "not a cell"
  | .notRepresentable => "unrepresentable value"

/-- `NounDecodeError`, without the variants of the proof-system types. -/
inductive NounDecodeError where
  | expectedAtom
  | expectedCell
  | fieldError (field message : String)
  | invalidEnumVariant
  | invalidEnumData
  | invalidTag
  | custom (message : String)
deriving DecidableEq, Repr

/-- `From<nockvm::noun::Error>`. -/
def NounDecodeError.ofNoun (e : NounError) : NounDecodeError := .custom e.text

/-- What a decoder returns. -/
abbrev Decoded (α : Type) := Outcome NounDecodeError α

/-! ### Atoms, words and bytes -/

/-- The 64-bit words of a normalised atom: at least one, and no zero word above it. -/
def words (a : Nat) : Nat := a.log2 / 64 + 1

/-- `AtomHandle::as_ne_bytes`: all the bytes of the atom's words, lowest first. -/
def asNeBytes (a : Nat) : List UInt8 := (peel 256 (8 * words a) a).1.map UInt8.ofNat

/-- The number whose bytes these are, lowest first. -/
def ofLittleEndian (bytes : List UInt8) : Nat := Nat.ofDigits 256 (bytes.map UInt8.toNat)

/-- `Atom::from_bytes`. -/
def fromBytes (bytes : List UInt8) : Option Nat :=
  if bytes = [] then none else some (ofLittleEndian bytes)

/-- `AtomHandle::as_u64`. -/
def asU64 (a : Nat) : Outcome NounError UInt64 :=
  if a < 2 ^ 64 then .ok (UInt64.ofNat a) else .err .notRepresentable

/-- `NounHandle::as_atom`. -/
def asAtom : Noun → Outcome NounError Nat
  | .atom a => .ok a
  | .cell _ _ => .err .notAtom

/-- `NounHandle::as_cell`. -/
def asCell : Noun → Outcome NounError (Noun × Noun)
  | .atom _ => .err .notCell
  | .cell h t => .ok (h, t)

/-- `str::as_bytes`. -/
def strBytes (s : String) : List UInt8 := s.toByteArray.data.toList

/-- `str::from_utf8`. -/
def fromUtf8 (bytes : List UInt8) : Option String := String.fromUTF8? ⟨bytes.toArray⟩

/-- `str::trim_end_matches('\0')`. -/
def trimEndNul (s : String) : String := String.ofList (s.toList.rdropWhile (· == Char.ofNat 0))

/-- `AtomHandle::into_string`; `none` for bytes that are not UTF-8. -/
def intoString (a : Nat) : Option String := (fromUtf8 (asNeBytes a)).map trimEndNul

/-- `make_tas`. -/
def makeTas (s : String) : Option Nat := fromBytes (strBytes s)

/-! ### Numbers, booleans, text and bytes -/

def u64ToNoun (x : UInt64) : Option Noun := some (.atom x.toNat)

def u64FromNoun (noun : Noun) : Decoded UInt64 :=
  match asAtom noun with
  | .ok a => (asU64 a).mapErr fun _ => .custom "Atom too large for u64"
  | _ => .err .expectedAtom

def u32ToNoun (x : UInt32) : Option Noun := some (.atom x.toUInt64.toNat)

/-- The cast `x as u32` keeps the low half of the word. -/
def u32FromNoun (noun : Noun) : Decoded UInt32 :=
  match asAtom noun with
  | .ok a => do
    let x ← (asU64 a).mapErr fun _ => NounDecodeError.custom "Atom too large for u32"
    return x.toUInt32
  | _ => .err .expectedAtom

/-- `usize`, on the 64-bit targets the virtual machine runs on. -/
structure Usize where
  val : UInt64
deriving DecidableEq, Repr

def usizeToNoun (x : Usize) : Option Noun := u64ToNoun x.val

/-- No word exceeds `usize::MAX`, so the check of the source never fails. -/
def usizeFromNoun (noun : Noun) : Decoded Usize := do
  let value ← u64FromNoun noun
  return ⟨value⟩

/-- `YES` is `0` and `NO` is `1`. -/
def boolToNoun (b : Bool) : Option Noun := some (.atom (if b then 0 else 1))

def boolFromNoun (noun : Noun) : Decoded Bool :=
  match asAtom noun with
  | .ok a =>
    match asU64 a with
    | .ok x =>
      if x = 0 then .ok true
      else if x = 1 then .ok false
      else .err (.custom "Invalid boolean value")
    | _ => .err (.custom "Invalid boolean value")
  | _ => .err .expectedAtom

def stringToNoun (s : String) : Option Noun := (makeTas s).map .atom

def stringFromNoun (noun : Noun) : Decoded String :=
  match asAtom noun with
  | .ok a =>
    match intoString a with
    | some s => .ok s
    | none => .err (.custom "Invalid string atom")
  | _ => .err .expectedAtom

/-- `bytes::Bytes`. -/
structure Bytes where
  data : List UInt8
deriving DecidableEq, Repr

def bytesToNoun (b : Bytes) : Option Noun := (fromBytes b.data).map .atom

def bytesFromNoun (noun : Noun) : Decoded Bytes := do
  let a ← (asAtom noun).mapErr fun _ => NounDecodeError.expectedAtom
  return ⟨asNeBytes a⟩

/-! ### Options, lists, arrays -/

section Sequences

variable {α : Type}

def optionToNoun (value : α → Option Noun) : Option α → Option Noun
  | some x => (value x).map (.cell (.atom 0))
  | none => some (.atom 0)

def optionFromNoun (value : Noun → Decoded α) : Noun → Decoded (Option α)
  | .atom a =>
    match asU64 a with
    | .ok x => if x = 0 then .ok none else .err (.custom "Invalid Option encoding")
    | _ => .err (.custom "Invalid Option encoding")
  | .cell h t => do
    let head ← (asAtom h).mapErr fun _ => NounDecodeError.expectedAtom
    let tag ← (asU64 head).mapErr NounDecodeError.ofNoun
    if tag ≠ 0 then .err (.custom "Invalid Option encoding - expected ~")
    else return some (← value t)

def vecToNoun (item : α → Option Noun) : List α → Option Noun
  | [] => some (.atom 0)
  | x :: xs => do return .cell (← item x) (← vecToNoun item xs)

/-- A list that does not end in `0` is a `panic!`, not an error. -/
def vecFromNoun (item : Noun → Decoded α) : Noun → Decoded (List α)
  | .atom a => if a = 0 then .ok [] else .panic
  | .cell h t => do
    let x ← item h
    let xs ← vecFromNoun item t
    return x :: xs

/-- `Vec<u8>`: a list of numbers. -/
def vecU8ToNoun (xs : List UInt8) : Option Noun := vecToNoun u64ToNoun (xs.map UInt8.toUInt64)

/-- The cast `x as u8` keeps the low byte of the word. -/
def vecU8FromNoun (noun : Noun) : Decoded (List UInt8) := do
  let nums ← vecFromNoun u64FromNoun noun
  return nums.map UInt64.toUInt8

/-- `[T; N]`: the elements without a terminator, `0` for none. -/
def arrayToNoun (item : α → Option Noun) : List α → Option Noun
  | [] => some (.atom 0)
  | [x] => item x
  | x :: y :: xs => do return .cell (← item x) (← arrayToNoun item (y :: xs))

def arrayFromNoun (item : Noun → Decoded α) : (n : Nat) → Noun → Decoded (List.Vector α n)
  | 0, _ => .ok .nil
  | 1, noun => do return (← item noun) ::ᵥ .nil
  | _ + 2, .atom _ => .err .expectedCell
  | n + 2, .cell h t => do
    let x ← item h
    let xs ← arrayFromNoun item (n + 1) t
    return x ::ᵥ xs

end Sequences

/-! ### Tuples

The instances for two to six components follow one pattern: the noun must be a
cell, every component's slot must exist, and only then are the components decoded,
left to right. -/

/-- The axes of the components of an `n`-tuple: `2`, `6`, `14`, …, and the last tail. -/
def tupleAxes (n : Nat) : List Nat :=
  (List.range (n - 1)).map (fun i => 2 ^ (i + 2) - 2) ++ [2 ^ n - 1]

/-- The components of an `n`-tuple, still nouns. -/
def tupleSlots (n : Nat) (noun : Noun) : Decoded (List Noun) :=
  match asCell noun with
  | .ok _ =>
    match (tupleAxes n).mapM noun.slot with
    | some parts => .ok parts
    | none => .err (.ofNoun .notRepresentable)
  | _ => .err .expectedCell

/-- A component in front of the noun of those after it. -/
def pairToNoun {α β : Type} (first : α → Option Noun) (rest : β → Option Noun) (x : α × β) :
    Option Noun := do
  return .cell (← first x.1) (← rest x.2)

/-- The last two components. -/
def lastComponents {α β : Type} (first : Noun → Decoded α) (second : Noun → Decoded β) :
    List Noun → Decoded (α × β)
  | [a, b] => do return (← first a, ← second b)
  | _ => .err .expectedCell

/-- A component and those after it. -/
def nextComponent {α β : Type} (first : Noun → Decoded α) (rest : List Noun → Decoded β) :
    List Noun → Decoded (α × β)
  | a :: parts => do return (← first a, ← rest parts)
  | [] => .err .expectedCell

/-! ### Maps, sets and results -/

section Trees

variable {α β : Type}

/-- `build_tree`: the middle entry at the root, the entries before it to the left
and those after it to the right. -/
def buildTree (nodes : List Noun) : Noun :=
  if h : nodes = [] then .atom 0
  else
    let mid := nodes.length / 2
    have hmid : mid < nodes.length := Nat.div_lt_self (List.length_pos_iff.2 h) (by omega)
    .cell nodes[mid] (.cell (buildTree (nodes.take mid)) (buildTree (nodes.drop (mid + 1))))
termination_by nodes.length
decreasing_by
  · rw [List.length_take]; omega
  · rw [List.length_drop]; omega

/-- `traverse_tree`: the node into the accumulator, then the left branch, then the
right one. -/
def traverseTree (node : Noun → α → Decoded α) : Noun → α → Decoded α
  | .atom a, acc => do
    let x ← (asU64 a).mapErr NounDecodeError.ofNoun
    if x = 0 then return acc else .err .expectedCell
  | .cell n (.cell l r), acc => do
    let acc ← node n acc
    let acc ← traverseTree node l acc
    traverseTree node r acc
  | .cell n (.atom _), acc => do
    let _ ← node n acc
    .err (.ofNoun .notCell)

/-- An iteration order of the hash tables: some order of the elements, which may
depend on everything the program did before. -/
structure Iteration where
  order : {γ : Type} → Multiset γ → List γ
  coe_order : ∀ {γ : Type} (s : Multiset γ), (order s : Multiset γ) = s

/-- A finite map. -/
abbrev Map (α β : Type) := Finmap fun _ : α => β

def entryToNoun (key : α → Option Noun) (value : β → Option Noun) (e : (_ : α) × β) :
    Option Noun := do
  return .cell (← key e.1) (← value e.2)

/-- `HashMap` and `BTreeMap`. The latter iterates in the order of its keys, which is
one of the orders an `Iteration` can have. -/
def mapToNoun (it : Iteration) (key : α → Option Noun) (value : β → Option Noun)
    (m : Map α β) : Option Noun :=
  ((it.order m.entries).mapM (entryToNoun key value)).map buildTree

/-- The two map decoders differ in the error for a node that is not a pair. -/
def mapFromNoun [DecidableEq α] (notPair : NounDecodeError) (key : Noun → Decoded α)
    (value : Noun → Decoded β) (noun : Noun) : Decoded (Map α β) :=
  traverseTree (fun node map => do
    let (k, v) ← (asCell node).mapErr fun _ => notPair
    let k ← key k
    let v ← value v
    return map.insert k v) noun ∅

def hashMapFromNoun [DecidableEq α] (key : Noun → Decoded α) (value : Noun → Decoded β) :
    Noun → Decoded (Map α β) :=
  mapFromNoun .expectedCell key value

def btreeMapFromNoun [DecidableEq α] (key : Noun → Decoded α) (value : Noun → Decoded β) :
    Noun → Decoded (Map α β) :=
  mapFromNoun (.ofNoun .notCell) key value

def hashSetToNoun (it : Iteration) (item : α → Option Noun) (s : Finset α) : Option Noun :=
  ((it.order s.val).mapM item).map buildTree

def hashSetFromNoun [DecidableEq α] (item : Noun → Decoded α) (noun : Noun) :
    Decoded (Finset α) :=
  traverseTree (fun node set => do return insert (← item node) set) noun ∅

def resultToNoun (value : α → Option Noun) (error : β → Option Noun) :
    Except β α → Option Noun
  | .ok v => do return .cell (.atom (← makeTas "ok")) (← value v)
  | .error e => do return .cell (.atom (← makeTas "err")) (← error e)

def resultFromNoun (value : Noun → Decoded α) (error : Noun → Decoded β) (noun : Noun) :
    Decoded (Except β α) := do
  let (head, tail) ← (asCell noun).mapErr fun _ => NounDecodeError.expectedCell
  let head ← (asAtom head).mapErr fun _ => NounDecodeError.expectedAtom
  match intoString head with
  | none => .err .invalidTag
  | some tag =>
    if tag = "ok" then return .ok (← value tail)
    else if tag = "err" then return .error (← error tail)
    else .err .invalidEnumVariant

end Trees

/-!
## The types the codecs nest to

Rust resolves `from_noun` from the type. Here the types built from the primitive ones
are codes `Ty`, nested to any depth, and `Ty.Val` is the type a code stands for;
`Ty.toNoun` and `Ty.fromNoun` are the codecs Rust resolves for it. `Fields` are the
components of a tuple, at least two.
-/

mutual

/-- A type with built-in codecs. -/
inductive Ty where
  | u32
  | u64
  | usize
  | bool
  | string
  | bytes
  | vecU8
  | option (t : Ty)
  | vec (t : Ty)
  | array (n : Nat) (t : Ty)
  | tuple (fs : Fields)
  | hashMap (k v : Ty)
  | btreeMap (k v : Ty)
  | hashSet (t : Ty)
  | result (t e : Ty)

/-- The components of a tuple. -/
inductive Fields where
  | pair (t u : Ty)
  | cons (t : Ty) (fs : Fields)

end

mutual

/-- The values of a type. -/
def Ty.Val : Ty → Type
  | .u32 => UInt32
  | .u64 => UInt64
  | .usize => Usize
  | .bool => Bool
  | .string => String
  | .bytes => Bytes
  | .vecU8 => List UInt8
  | .option t => Option t.Val
  | .vec t => List t.Val
  | .array n t => List.Vector t.Val n
  | .tuple fs => fs.Val
  | .hashMap k v => Map k.Val v.Val
  | .btreeMap k v => Map k.Val v.Val
  | .hashSet t => Finset t.Val
  | .result t e => Except e.Val t.Val

def Fields.Val : Fields → Type
  | .pair t u => t.Val × u.Val
  | .cons t fs => t.Val × fs.Val

end

/-- How many components a tuple has. -/
def Fields.arity : Fields → Nat
  | .pair _ _ => 2
  | .cons _ fs => fs.arity + 1

mutual

/-- `Eq`, which the keys of maps and the elements of sets are compared with. -/
def Ty.decEq : (t : Ty) → DecidableEq t.Val
  | .u32 => inferInstanceAs (DecidableEq UInt32)
  | .u64 => inferInstanceAs (DecidableEq UInt64)
  | .usize => inferInstanceAs (DecidableEq Usize)
  | .bool => inferInstanceAs (DecidableEq Bool)
  | .string => inferInstanceAs (DecidableEq String)
  | .bytes => inferInstanceAs (DecidableEq Bytes)
  | .vecU8 => inferInstanceAs (DecidableEq (List UInt8))
  | .option t => haveI := t.decEq; inferInstanceAs (DecidableEq (Option t.Val))
  | .vec t => haveI := t.decEq; inferInstanceAs (DecidableEq (List t.Val))
  | .array n t => haveI := t.decEq; inferInstanceAs (DecidableEq (List.Vector t.Val n))
  | .tuple fs => fs.decEq
  | .hashMap k v =>
    haveI := k.decEq; haveI := v.decEq; inferInstanceAs (DecidableEq (Map k.Val v.Val))
  | .btreeMap k v =>
    haveI := k.decEq; haveI := v.decEq; inferInstanceAs (DecidableEq (Map k.Val v.Val))
  | .hashSet t => haveI := t.decEq; inferInstanceAs (DecidableEq (Finset t.Val))
  | .result t e =>
    haveI := t.decEq; haveI := e.decEq; inferInstanceAs (DecidableEq (Except e.Val t.Val))

def Fields.decEq : (fs : Fields) → DecidableEq fs.Val
  | .pair t u => haveI := t.decEq; haveI := u.decEq; inferInstanceAs (DecidableEq (t.Val × u.Val))
  | .cons t fs =>
    haveI := t.decEq; haveI := fs.decEq; inferInstanceAs (DecidableEq (t.Val × fs.Val))

end

instance (t : Ty) : DecidableEq t.Val := t.decEq

mutual

/-- `to_noun`. -/
def Ty.toNoun (it : Iteration) : (t : Ty) → t.Val → Option Noun
  | .u32 => u32ToNoun
  | .u64 => u64ToNoun
  | .usize => usizeToNoun
  | .bool => boolToNoun
  | .string => stringToNoun
  | .bytes => bytesToNoun
  | .vecU8 => vecU8ToNoun
  | .option t => optionToNoun (t.toNoun it)
  | .vec t => vecToNoun (t.toNoun it)
  | .array _ t => fun xs => arrayToNoun (t.toNoun it) xs.toList
  | .tuple fs => fs.toNoun it
  | .hashMap k v => mapToNoun it (k.toNoun it) (v.toNoun it)
  | .btreeMap k v => mapToNoun it (k.toNoun it) (v.toNoun it)
  | .hashSet t => hashSetToNoun it (t.toNoun it)
  | .result t e => resultToNoun (t.toNoun it) (e.toNoun it)

def Fields.toNoun (it : Iteration) : (fs : Fields) → fs.Val → Option Noun
  | .pair t u => pairToNoun (t.toNoun it) (u.toNoun it)
  | .cons t fs => pairToNoun (t.toNoun it) (fs.toNoun it)

end

mutual

/-- `from_noun`. -/
def Ty.fromNoun : (t : Ty) → Noun → Decoded t.Val
  | .u32 => u32FromNoun
  | .u64 => u64FromNoun
  | .usize => usizeFromNoun
  | .bool => boolFromNoun
  | .string => stringFromNoun
  | .bytes => bytesFromNoun
  | .vecU8 => vecU8FromNoun
  | .option t => optionFromNoun t.fromNoun
  | .vec t => vecFromNoun t.fromNoun
  | .array n t => arrayFromNoun t.fromNoun n
  | .tuple fs => fun noun => do fs.fromNouns (← tupleSlots fs.arity noun)
  | .hashMap k v => hashMapFromNoun k.fromNoun v.fromNoun
  | .btreeMap k v => btreeMapFromNoun k.fromNoun v.fromNoun
  | .hashSet t => hashSetFromNoun t.fromNoun
  | .result t e => resultFromNoun t.fromNoun e.fromNoun

/-- The components, decoded left to right. -/
def Fields.fromNouns : (fs : Fields) → List Noun → Decoded fs.Val
  | .pair t u => lastComponents t.fromNoun u.fromNoun
  | .cons t fs => nextComponent t.fromNoun fs.fromNouns

end

end Nockchain.NounSerde
