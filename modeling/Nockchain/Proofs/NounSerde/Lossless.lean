import Nockchain.Proofs.NounSerde.Settles

/-!
# `Nockchain.Proofs.NounSerde.Lossless`: what a decoder does with any noun

A decoder is described by three properties of nouns (`Reads`): those it panics on,
those it accepts, and those among them it loses nothing of, in that encoding what it
returned gives the noun back. As with `Settles`, the description of a composed decoder
follows from those of its parts.

Three decoders accept more than they keep: `u32` and `Vec<u8>` cast a word to their
width, and `[T; 0]` does not look at its noun. And `Vec<T>` panics where a list does not
end in `0`. `faithful_iff` says that nothing else goes wrong.
-/

set_option autoImplicit false

namespace Nockchain.NounSerde

open Nockchain.Lib
open Outcome (bind_eq_ok bind_eq_panic pure_eq mapErr)

/-- The nouns a decoder panics on, accepts, and loses nothing of. -/
structure Reads {α : Type} (enc : α → Option Noun) (dec : Noun → Decoded α)
    (jams accepts exact : Noun → Prop) : Prop where
  panic_iff : ∀ n, dec n = .panic ↔ jams n
  ok_iff : ∀ n, (∃ x, dec n = .ok x) ↔ accepts n
  enc_iff : ∀ {n x}, dec n = .ok x → (enc x = some n ↔ exact n)

/-- An atom below a bound. -/
def Below (bound : Nat) : Noun → Prop
  | .atom a => a < bound
  | .cell _ _ => False

/-! ### Numbers -/

theorem asU64_eq_ok {a : Nat} {x : UInt64} : asU64 a = .ok x ↔ a = x.toNat := by
  unfold asU64
  split_ifs with ha
  · rw [Outcome.ok.injEq]
    constructor
    · rintro rfl
      exact (UInt64.toNat_ofNat_of_lt' ha).symm
    · rintro rfl
      exact UInt64.ofNat_toNat
  · constructor
    · intro h
      simp at h
    · rintro rfl
      exact absurd x.toNat_lt ha

theorem u64FromNoun_eq_ok {n : Noun} {x : UInt64} : u64FromNoun n = .ok x ↔ n = .atom x.toNat := by
  cases n with
  | cell h t => simp [u64FromNoun, asAtom]
  | atom a =>
    rw [Noun.atom.injEq, ← asU64_eq_ok]
    simp only [u64FromNoun, asAtom]
    cases asU64 a <;> simp [mapErr]

theorem u64FromNoun_ne_panic (n : Noun) : u64FromNoun n ≠ .panic := by
  cases n with
  | cell h t => simp [u64FromNoun, asAtom]
  | atom a =>
    simp only [u64FromNoun, asAtom, asU64]
    split_ifs <;> simp [mapErr]

theorem exists_toNat {a : Nat} : (∃ x : UInt64, a = x.toNat) ↔ a < 2 ^ 64 := by
  constructor
  · rintro ⟨x, rfl⟩
    exact x.toNat_lt
  · intro ha
    exact ⟨UInt64.ofNat a, (UInt64.toNat_ofNat_of_lt' ha).symm⟩

theorem reads_u64 :
    Reads u64ToNoun u64FromNoun (fun _ => False) (Below (2 ^ 64)) (Below (2 ^ 64)) := by
  refine ⟨fun n => by simp [u64FromNoun_ne_panic], ?_, ?_⟩
  · intro n
    simp only [u64FromNoun_eq_ok]
    cases n with
    | atom a => simpa [Below] using exists_toNat (a := a)
    | cell h t => simp [Below]
  · intro n x hx
    obtain rfl := u64FromNoun_eq_ok.1 hx
    simpa [u64ToNoun, Below] using x.toNat_lt

theorem reads_usize :
    Reads usizeToNoun usizeFromNoun (fun _ => False) (Below (2 ^ 64)) (Below (2 ^ 64)) := by
  have hok : ∀ {n x}, usizeFromNoun n = .ok x ↔ u64FromNoun n = .ok x.val := by
    intro n x
    obtain ⟨x⟩ := x
    simp [usizeFromNoun, bind_eq_ok]
  refine ⟨?_, ?_, ?_⟩
  · intro n
    simp [usizeFromNoun, bind_eq_panic, u64FromNoun_ne_panic]
  · intro n
    rw [← reads_u64.ok_iff]
    constructor
    · rintro ⟨x, hx⟩
      exact ⟨x.val, hok.1 hx⟩
    · rintro ⟨x, hx⟩
      exact ⟨⟨x⟩, hok.2 hx⟩
  · intro n x hx
    exact reads_u64.enc_iff (hok.1 hx)

/-- `u32` is read as a `u64` and cast: 64 bits are accepted, 32 are exact. -/
theorem reads_u32 :
    Reads u32ToNoun u32FromNoun (fun _ => False) (Below (2 ^ 64)) (Below (2 ^ 32)) := by
  have hatom : ∀ a, u32FromNoun (.atom a)
      = if a < 2 ^ 64 then .ok (UInt64.ofNat a).toUInt32
        else .err (.custom "Atom too large for u32") := by
    intro a
    simp only [u32FromNoun, asAtom, asU64]
    split_ifs <;> rfl
  refine ⟨?_, ?_, ?_⟩
  · intro n
    cases n with
    | cell h t => simp [u32FromNoun, asAtom]
    | atom a =>
      rw [hatom]
      split_ifs <;> simp
  · intro n
    cases n with
    | cell h t => simp [u32FromNoun, asAtom, Below]
    | atom a =>
      rw [hatom]
      split_ifs with ha
      · simpa [Below] using ha
      · simpa [Below] using ha
  · intro n x hx
    cases n with
    | cell h t => simp [u32FromNoun, asAtom] at hx
    | atom a =>
      rw [hatom] at hx
      split_ifs at hx with ha
      obtain rfl : (UInt64.ofNat a).toUInt32 = x := by simpa using hx
      have hvalue : (UInt64.ofNat a).toUInt32.toUInt64.toNat = a % 2 ^ 32 := by
        simp
      rw [u32ToNoun, Option.some.injEq, Noun.atom.injEq]
      show _ ↔ a < 2 ^ 32
      omega

/-! ### Sequences -/

/-- `~`, or a cell of `~` and a noun with `p`. -/
def InOption (p : Noun → Prop) : Noun → Prop
  | .atom a => a = 0
  | .cell h t => h = .atom 0 ∧ p t

/-- The value of a `Some` has `p`. -/
def InSome (p : Noun → Prop) : Noun → Prop
  | .atom _ => False
  | .cell h t => h = .atom 0 ∧ p t

/-- A list that ends in `0` and whose elements have `p`. -/
def InList (p : Noun → Prop) : Noun → Prop
  | .atom a => a = 0
  | .cell h t => p h ∧ InList p t

/-- Going down a list, `jams` holds of an element, or the list ends in another atom
than `0`, with all elements before in `accepts`. -/
def ListJams (jams accepts : Noun → Prop) : Noun → Prop
  | .atom a => a ≠ 0
  | .cell h t => jams h ∨ accepts h ∧ ListJams jams accepts t

/-- An array of `k` elements with `p`, and of `0` a noun with `q`. -/
def InArray (p q : Noun → Prop) : Nat → Noun → Prop
  | 0, n => q n
  | 1, n => p n
  | _ + 2, .atom _ => False
  | k + 2, .cell h t => p h ∧ InArray p q (k + 1) t

/-- Going along an array, `jams` holds of an element, with all before in `accepts`. -/
def ArrayJams (jams accepts : Noun → Prop) : Nat → Noun → Prop
  | 0, _ => False
  | 1, n => jams n
  | _ + 2, .atom _ => False
  | k + 2, .cell h t => jams h ∨ accepts h ∧ ArrayJams jams accepts (k + 1) t

namespace Reads

variable {α : Type} {enc : α → Option Noun} {dec : Noun → Decoded α}
  {jams accepts exact : Noun → Prop}

section

variable (h : Reads enc dec jams accepts exact)

include h

theorem option : Reads (optionToNoun enc) (optionFromNoun dec) (InSome jams) (InOption accepts)
      (InOption exact) := by
  have hzero : ∀ x : UInt64, x = 0 ↔ x.toNat = 0 := fun x => UInt64.toNat_inj.symm
  have hatom : ∀ a, optionFromNoun dec (.atom a)
      = if a = 0 then .ok none else .err (.custom "Invalid Option encoding") := by
    intro a
    by_cases ha : a < 2 ^ 64
    · obtain ⟨x, rfl⟩ := exists_toNat.2 ha
      simp [optionFromNoun, asU64_toNat, hzero]
    · have hne : a ≠ 0 := by omega
      simp only [optionFromNoun, asU64, if_neg ha, if_neg hne]
  have hcell : ∀ t, optionFromNoun dec (.cell (.atom 0) t) = (do return some (← dec t)) := by
    intro t
    simp [optionFromNoun, asAtom, asU64, mapErr]
  -- Any other head is an error, never a panic.
  have herr : ∀ hd t, hd ≠ .atom 0 → ∃ e, optionFromNoun dec (.cell hd t) = .err e := by
    intro hd t hne
    cases hd with
    | cell _ _ => exact ⟨.expectedAtom, rfl⟩
    | atom a =>
      by_cases ha : a < 2 ^ 64
      · obtain ⟨x, rfl⟩ := exists_toNat.2 ha
        have hx : x ≠ 0 := fun h0 => hne (congrArg Noun.atom ((hzero x).1 h0))
        exact ⟨.custom "Invalid Option encoding - expected ~",
          by simp [optionFromNoun, asAtom, asU64_toNat, mapErr, hx]⟩
      · exact ⟨.ofNoun .notRepresentable,
          by simp only [optionFromNoun, asAtom, asU64, if_neg ha, mapErr, Outcome.ok_bind,
            Outcome.err_bind]⟩
  refine ⟨?_, ?_, ?_⟩
  · intro n
    cases n with
    | atom a =>
      rw [hatom, InSome]
      split_ifs <;> simp
    | cell hd tl =>
      by_cases hhd : hd = .atom 0
      · subst hhd
        simp [hcell, InSome, bind_eq_panic, h.panic_iff]
      · obtain ⟨e, he⟩ := herr hd tl hhd
        simp [he, InSome, hhd]
  · intro n
    cases n with
    | atom a =>
      rw [hatom, InOption]
      split_ifs with ha <;> simp [ha]
    | cell hd tl =>
      by_cases hhd : hd = .atom 0
      · subst hhd
        simp [hcell, InOption, bind_eq_ok, ← h.ok_iff]
      · obtain ⟨e, he⟩ := herr hd tl hhd
        simp [he, InOption, hhd]
  · intro n x hx
    cases n with
    | atom a =>
      rw [hatom] at hx
      split_ifs at hx with ha
      obtain rfl : none = x := by simpa using hx
      simp [optionToNoun, InOption, ha]
    | cell hd tl =>
      by_cases hhd : hd = .atom 0
      · subst hhd
        simp only [hcell, bind_eq_ok, pure_eq, Outcome.ok.injEq] at hx
        obtain ⟨y, hy, rfl⟩ := hx
        simp [optionToNoun, InOption, ← h.enc_iff hy]
      · obtain ⟨e, he⟩ := herr hd tl hhd
        simp [he] at hx

/-- A list, by induction on the noun: what stands at its end decides between panic and success. -/
theorem vec : Reads (vecToNoun enc) (vecFromNoun dec) (ListJams jams accepts) (InList accepts)
      (InList exact) := by
  refine ⟨?_, ?_, ?_⟩
  · intro n
    induction n with
    | atom a =>
      simp only [vecFromNoun, ListJams]
      split_ifs with ha <;> simp [ha]
    | cell hd tl _ ih =>
      rw [vecFromNoun, bind_eq_panic, h.panic_iff, ListJams, ← h.ok_iff, ← ih]
      simp [bind_eq_panic]
  · intro n
    induction n with
    | atom a =>
      simp only [vecFromNoun, InList]
      split_ifs with ha <;> simp [ha]
    | cell hd tl _ ih =>
      rw [InList, ← h.ok_iff, ← ih]
      simp [vecFromNoun, bind_eq_ok]
  · intro n
    induction n with
    | atom a =>
      intro xs hxs
      simp only [vecFromNoun] at hxs
      split_ifs at hxs with ha
      obtain rfl : [] = xs := by simpa using hxs
      simp [vecToNoun, InList, ha]
    | cell hd tl _ ih =>
      intro xs hxs
      simp only [vecFromNoun, bind_eq_ok, pure_eq, Outcome.ok.injEq] at hxs
      obtain ⟨y, hy, ys, hys, rfl⟩ := hxs
      rw [InList, ← h.enc_iff hy, ← ih hys]
      simp [vecToNoun, Option.bind_eq_some_iff]

theorem array (k : Nat) :
    Reads (fun xs : List.Vector α k => arrayToNoun enc xs.toList) (arrayFromNoun dec k)
      (ArrayJams jams accepts k) (InArray accepts (fun _ => True) k)
      (InArray exact (· = .atom 0) k) := by
  induction k with
  | zero =>
    refine ⟨fun n => by simp [arrayFromNoun, ArrayJams], fun n => by simp [arrayFromNoun, InArray], ?_⟩
    intro n xs _
    simp [List.Vector.eq_nil xs, arrayToNoun, InArray, eq_comm]
  | succ k ih =>
    cases k with
    | zero =>
      refine ⟨?_, ?_, ?_⟩
      · intro n
        simp [arrayFromNoun, ArrayJams, bind_eq_panic, h.panic_iff]
      · intro n
        simp [arrayFromNoun, InArray, bind_eq_ok, ← h.ok_iff]
      · intro n xs hxs
        simp only [arrayFromNoun, bind_eq_ok, pure_eq, Outcome.ok.injEq] at hxs
        obtain ⟨y, hy, rfl⟩ := hxs
        simpa [arrayToNoun, InArray] using h.enc_iff hy
    | succ k =>
      refine ⟨?_, ?_, ?_⟩
      · intro n
        cases n with
        | atom a => simp [arrayFromNoun, ArrayJams]
        | cell hd tl =>
          rw [arrayFromNoun, bind_eq_panic, h.panic_iff, ArrayJams, ← h.ok_iff,
            ← ih.panic_iff]
          simp [bind_eq_panic]
      · intro n
        cases n with
        | atom a => simp [arrayFromNoun, InArray]
        | cell hd tl =>
          rw [InArray, ← h.ok_iff, ← ih.ok_iff]
          simp [arrayFromNoun, bind_eq_ok]
      · intro n xs hxs
        cases n with
        | atom a => simp [arrayFromNoun] at hxs
        | cell hd tl =>
          simp only [arrayFromNoun, bind_eq_ok, pure_eq, Outcome.ok.injEq] at hxs
          obtain ⟨y, hy, ys, hys, rfl⟩ := hxs
          rw [InArray, ← h.enc_iff hy, ← ih.enc_iff hys]
          obtain ⟨z, zs, rfl⟩ := ys.exists_eq_cons
          simp [arrayToNoun, Option.bind_eq_some_iff]

end

end Reads

/-- Bytes are read as words and cast, so larger words are accepted and cut. -/
theorem reads_vecU8 : Reads vecU8ToNoun vecU8FromNoun (ListJams (fun _ => False) (Below (2 ^ 64)))
      (InList (Below (2 ^ 64))) (InList (Below (2 ^ 8))) := by
  have h := reads_u64.vec
  refine ⟨?_, ?_, ?_⟩
  · intro n
    simp [vecU8FromNoun, bind_eq_panic, h.panic_iff]
  · intro n
    rw [← h.ok_iff]
    simp [vecU8FromNoun, bind_eq_ok]
  intro n
  induction n with
  | atom a =>
    intro xs hxs
    simp only [vecU8FromNoun, vecFromNoun] at hxs
    split_ifs at hxs with ha
    obtain rfl : [] = xs := by simpa using hxs
    simp [vecU8ToNoun, vecToNoun, InList, ha]
  | cell hd tl _ ih =>
    intro xs hxs
    simp only [vecU8FromNoun, vecFromNoun, bind_eq_ok, pure_eq,
      Outcome.ok.injEq] at hxs
    obtain ⟨_, ⟨y, hy, ys, hys, rfl⟩, rfl⟩ := hxs
    have hrest := ih (x := ys.map UInt64.toUInt8) (by simp [vecU8FromNoun, hys])
    obtain rfl := u64FromNoun_eq_ok.1 hy
    have hbyte : y.toUInt8.toUInt64.toNat = y.toNat ↔ y.toNat < 2 ^ 8 := by
      have hvalue : y.toUInt8.toUInt64.toNat = y.toNat % 2 ^ 8 := by simp
      omega
    rw [InList, ← hrest]
    show _ ↔ y.toNat < 2 ^ 8 ∧ _
    simp [vecU8ToNoun, vecToNoun, u64ToNoun, Option.bind_eq_some_iff, and_comm]

/-! ### Tuples -/

/-- The components of a tuple are described like a noun is. -/
structure ReadsParts {α : Type} (m : Nat) (enc : α → Option Noun) (dec : List Noun → Decoded α)
    (jams accepts exact : List Noun → Prop) : Prop where
  panic_iff : ∀ {n parts}, spine m n = some parts → (dec parts = .panic ↔ jams parts)
  ok_iff : ∀ {n parts}, spine m n = some parts → ((∃ x, dec parts = .ok x) ↔ accepts parts)
  enc_iff : ∀ {n parts x}, spine m n = some parts → dec parts = .ok x →
    (enc x = some n ↔ exact parts)

/-- The last two components, with `p` and with `q`. -/
def LastTwo (p q : Noun → Prop) : List Noun → Prop
  | [a, b] => p a ∧ q b
  | _ => False

/-- `jams` holds of one of the last two components, and of the second after `accepts`
of the first. -/
def LastTwoJam (jams accepts jams' : Noun → Prop) : List Noun → Prop
  | [a, b] => jams a ∨ accepts a ∧ jams' b
  | _ => False

/-- A component with `p`, and those after it with `q`. -/
def Next (p : Noun → Prop) (q : List Noun → Prop) : List Noun → Prop
  | a :: parts => p a ∧ q parts
  | [] => False

def NextJams (jams accepts : Noun → Prop) (rest : List Noun → Prop) : List Noun → Prop
  | a :: parts => jams a ∨ accepts a ∧ rest parts
  | [] => False

section Tuples

variable {α β : Type} {enc : α → Option Noun} {dec : Noun → Decoded α}
  {jams accepts exact : Noun → Prop}

variable {enc' : β → Option Noun}

/-- The last two components of a tuple. -/
theorem Reads.pair (h : Reads enc dec jams accepts exact)
    {dec' : Noun → Decoded β} {jams' accepts' exact' : Noun → Prop}
    (h' : Reads enc' dec' jams' accepts' exact') :
    ReadsParts 1 (pairToNoun enc enc') (lastComponents dec dec') (LastTwoJam jams accepts jams')
      (LastTwo accepts accepts') (LastTwo exact exact') := by
  have hspine : ∀ {n parts}, spine 1 n = some parts → ∃ a b, n = .cell a b ∧ parts = [a, b] := by
    intro n parts hn
    cases n with
    | atom a => simp [spine] at hn
    | cell a b => exact ⟨a, b, rfl, by simpa [spine] using hn.symm⟩
  refine ⟨?_, ?_, ?_⟩
  · intro n parts hn
    obtain ⟨a, b, rfl, rfl⟩ := hspine hn
    rw [LastTwoJam, ← h.panic_iff, ← h.ok_iff, ← h'.panic_iff]
    simp [lastComponents, bind_eq_panic]
  · intro n parts hn
    obtain ⟨a, b, rfl, rfl⟩ := hspine hn
    rw [LastTwo, ← h.ok_iff, ← h'.ok_iff]
    simp [lastComponents, bind_eq_ok]
  · intro n parts x hn hx
    obtain ⟨a, b, rfl, rfl⟩ := hspine hn
    obtain ⟨_, _, heq, ha, hb⟩ := lastComponents_eq_ok.1 hx
    cases heq
    rw [LastTwo, ← h.enc_iff ha, ← h'.enc_iff hb, pairToNoun_eq_some]
    simp

variable {jams' accepts' exact' : List Noun → Prop} {dec' : List Noun → Decoded β}

/-- A component in front of a tuple that is read. -/
theorem Reads.next {m : Nat} (h : Reads enc dec jams accepts exact)
    (h' : ReadsParts m enc' dec' jams' accepts' exact') :
    ReadsParts (m + 1) (pairToNoun enc enc') (nextComponent dec dec')
      (NextJams jams accepts jams') (Next accepts accepts') (Next exact exact') := by
  have hspine : ∀ {n parts}, spine (m + 1) n = some parts →
      ∃ a b rest, n = .cell a b ∧ spine m b = some rest ∧ parts = a :: rest := by
    intro n parts hn
    cases n with
    | atom a => simp [spine] at hn
    | cell a b =>
      rw [spine, Option.map_eq_some_iff] at hn
      obtain ⟨rest, hrest, rfl⟩ := hn
      exact ⟨a, b, rest, rfl, hrest, rfl⟩
  refine ⟨?_, ?_, ?_⟩
  · intro n parts hn
    obtain ⟨a, b, rest, rfl, hrest, rfl⟩ := hspine hn
    rw [NextJams, ← h.panic_iff, ← h.ok_iff, ← h'.panic_iff hrest]
    simp [nextComponent, bind_eq_panic]
  · intro n parts hn
    obtain ⟨a, b, rest, rfl, hrest, rfl⟩ := hspine hn
    rw [Next, ← h.ok_iff, ← h'.ok_iff hrest]
    simp [nextComponent, bind_eq_ok]
  · intro n parts x hn hx
    obtain ⟨a, b, rest, rfl, hrest, rfl⟩ := hspine hn
    obtain ⟨_, _, heq, ha, hb⟩ := nextComponent_eq_ok.1 hx
    cases heq
    rw [Next, ← h.enc_iff ha, ← h'.enc_iff hrest hb, pairToNoun_eq_some]
    simp

/-- The noun has the components of an `(m + 2)`-tuple, and they have `p`. -/
def InTuple (m : Nat) (p : List Noun → Prop) (n : Noun) : Prop :=
  ∃ parts, spine (m + 1) n = some parts ∧ p parts

theorem ReadsParts.tuple {m : Nat} (h : ReadsParts (m + 1) enc' dec' jams' accepts' exact') :
    Reads enc' (fun n => do dec' (← tupleSlots (m + 2) n)) (InTuple m jams') (InTuple m accepts')
      (InTuple m exact') := by
  refine ⟨?_, ?_, ?_⟩
  · intro n
    simp only [bind_eq_panic, tupleSlots_ne_panic, false_or, tupleSlots_eq_ok, InTuple]
    exact exists_congr fun parts => and_congr_right fun hparts => h.panic_iff hparts
  · intro n
    simp only [bind_eq_ok, tupleSlots_eq_ok, InTuple]
    rw [exists_comm]
    refine exists_congr fun parts => ?_
    rw [exists_and_left]
    exact and_congr_right fun hparts => h.ok_iff hparts
  · intro n x hx
    simp only [bind_eq_ok, tupleSlots_eq_ok] at hx
    obtain ⟨parts, hparts, hx⟩ := hx
    rw [h.enc_iff hparts hx, InTuple, hparts]
    simp

end Tuples

/-! ### All types -/

mutual

/-- The number types, byte lists, lists, arrays, tuples and options, nested. -/
def Ty.Listed : Ty → Prop
  | .u32 => True
  | .u64 => True
  | .usize => True
  | .vecU8 => True
  | .option t => t.Listed
  | .vec t => t.Listed
  | .array _ t => t.Listed
  | .tuple fs => fs.Listed
  | _ => False

def Fields.Listed : Fields → Prop
  | .pair t u => t.Listed ∧ u.Listed
  | .cons t fs => t.Listed ∧ fs.Listed

end

mutual

/-- The nouns with the shape of a type, where a number may be any word and an empty
array any noun. -/
def Ty.Accepts : Ty → Noun → Prop
  | .u32 => Below (2 ^ 64)
  | .u64 => Below (2 ^ 64)
  | .usize => Below (2 ^ 64)
  | .vecU8 => InList (Below (2 ^ 64))
  | .option t => InOption t.Accepts
  | .vec t => InList t.Accepts
  | .array k t => InArray t.Accepts (fun _ => True) k
  | .tuple fs => InTuple (fs.arity - 2) fs.Accepts
  | _ => fun _ => False

def Fields.Accepts : Fields → List Noun → Prop
  | .pair t u => LastTwo t.Accepts u.Accepts
  | .cons t fs => Next t.Accepts fs.Accepts

end

mutual

/-- The nouns with the shape of a type, where a number fits its width and an empty
array is `0`. -/
def Ty.Exact : Ty → Noun → Prop
  | .u32 => Below (2 ^ 32)
  | .u64 => Below (2 ^ 64)
  | .usize => Below (2 ^ 64)
  | .vecU8 => InList (Below (2 ^ 8))
  | .option t => InOption t.Exact
  | .vec t => InList t.Exact
  | .array k t => InArray t.Exact (· = .atom 0) k
  | .tuple fs => InTuple (fs.arity - 2) fs.Exact
  | _ => fun _ => False

def Fields.Exact : Fields → List Noun → Prop
  | .pair t u => LastTwo t.Exact u.Exact
  | .cons t fs => Next t.Exact fs.Exact

end

mutual

/-- The nouns where a list ends in another atom than `0`, and what is read before it
has the shape of its type. -/
def Ty.Jams : Ty → Noun → Prop
  | .vecU8 => ListJams (fun _ => False) (Below (2 ^ 64))
  | .option t => InSome t.Jams
  | .vec t => ListJams t.Jams t.Accepts
  | .array k t => ArrayJams t.Jams t.Accepts k
  | .tuple fs => InTuple (fs.arity - 2) fs.Jams
  | _ => fun _ => False

def Fields.Jams : Fields → List Noun → Prop
  | .pair t u => LastTwoJam t.Jams t.Accepts u.Jams
  | .cons t fs => NextJams t.Jams t.Accepts fs.Jams

end

mutual

theorem Ty.reads (it : Iteration) :
    (t : Ty) → t.Listed → Reads (t.toNoun it) t.fromNoun t.Jams t.Accepts t.Exact
  | .u32, _ => reads_u32
  | .u64, _ => reads_u64
  | .usize, _ => reads_usize
  | .vecU8, _ => reads_vecU8
  | .option t, h => (t.reads it h).option
  | .vec t, h => (t.reads it h).vec
  | .array k t, h => (t.reads it h).array k
  | .tuple fs, h => by
    obtain ⟨m, hm⟩ := fs.exists_arity
    have hfs := fs.reads it h
    rw [hm] at hfs
    show Reads (fs.toNoun it) (fun n => do fs.fromNouns (← tupleSlots fs.arity n))
      (InTuple (fs.arity - 2) fs.Jams) (InTuple (fs.arity - 2) fs.Accepts)
      (InTuple (fs.arity - 2) fs.Exact)
    rw [hm]
    exact hfs.tuple

theorem Fields.reads (it : Iteration) : (fs : Fields) → fs.Listed →
    ReadsParts (fs.arity - 1) (fs.toNoun it) fs.fromNouns fs.Jams fs.Accepts fs.Exact
  | .pair t u, h => (t.reads it h.1).pair (u.reads it h.2)
  | .cons t fs, h => by
    obtain ⟨m, hm⟩ := fs.exists_arity
    have hfs := fs.reads it h.2
    have hnext := (t.reads it h.1).next hfs
    have harity : fs.arity - 1 + 1 = (Fields.cons t fs).arity - 1 := by
      show fs.arity - 1 + 1 = fs.arity + 1 - 1
      omega
    rwa [← harity]

end

/-- `from_noun` returns, and what it returns `Ok` of encodes to the noun. -/
def Ty.Faithful (it : Iteration) (t : Ty) (n : Noun) : Prop :=
  t.fromNoun n ≠ .panic ∧ ∀ x, t.fromNoun n = .ok x → t.toNoun it x = some n

/-- A decoder is total and loses nothing exactly on the nouns without a badly ended list
to read, that have the exact shape of the type if they have its shape at all. -/
theorem faithful_iff (it : Iteration) (t : Ty) (ht : t.Listed) (n : Noun) :
    t.Faithful it n ↔ ¬ t.Jams n ∧ (t.Accepts n → t.Exact n) := by
  have h := t.reads it ht
  unfold Ty.Faithful
  rw [← h.ok_iff, Ne, h.panic_iff]
  refine and_congr_right fun _ => ?_
  constructor
  · rintro hall ⟨x, hx⟩
    exact (h.enc_iff hx).1 (hall x hx)
  · intro hexact x hx
    exact (h.enc_iff hx).2 (hexact ⟨x, hx⟩)

/-- A list of two numbers that fit. -/
theorem faithful_numbers : (Ty.vec .u32).Faithful ⟨fun s => s.toList, fun s => s.coe_toList⟩
      (.cell (.atom 7) (.cell (.atom 8) (.atom 0))) := by
  refine (faithful_iff _ (.vec .u32) trivial _).2 ⟨?_, fun _ => ?_⟩
  · show ¬ ListJams (fun _ => False) (Below (2 ^ 64)) _
    simp [ListJams]
  · show InList (Below (2 ^ 32)) _
    simp [InList, Below]

/-- A list that ends in `1` is a panic; a number above its width, a byte above its
width and an empty array read from `1` are accepted as something else. -/
theorem not_faithful_malformed : (∀ it, ¬ (Ty.vec .u64).Faithful it (.atom 1)) ∧
    (∀ it, ¬ Ty.u32.Faithful it (.atom (2 ^ 32))) ∧
    (∀ it, ¬ Ty.vecU8.Faithful it (.cell (.atom 256) (.atom 0))) ∧
    (∀ it, ¬ (Ty.array 0 .u64).Faithful it (.atom 1)) := by
  refine ⟨fun it h => h.1 rfl, fun it h => ?_, fun it h => ?_, fun it h => ?_⟩
  · have hlost : u32ToNoun 0 = some (.atom (2 ^ 32)) := h.2 (0 : UInt32) rfl
    exact absurd hlost (by decide)
  · have hlost : vecU8ToNoun [0] = some (.cell (.atom 256) (.atom 0)) := h.2 ([0] : List UInt8) rfl
    exact absurd hlost (by decide)
  · have hlost : arrayToNoun u64ToNoun [] = some (.atom 1) :=
      h.2 (List.Vector.nil : List.Vector UInt64 0) rfl
    exact absurd hlost (by decide)

end Nockchain.NounSerde
