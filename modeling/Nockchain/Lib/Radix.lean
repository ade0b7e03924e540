import Mathlib

/-!
# `Nockchain.Lib.Radix`: positional notation

Numbers written in a base, in the three forms codecs use.

* `peel b k v` takes `k` digits off `v`, lowest first, and returns what is left
  above them: the loop of `% b` and `/= b`. `ofDigits_peel` puts them back, and
  `peel_ofDigits` says the loop recovers any `k` digits that are below the base.
* `rebase a b ds` rewrites a digit string from base `a` to base `b`, highest digit
  first, keeping one leading zero for each leading zero. It loses nothing:
  `rebase_rebase` goes back to the very string it started from.
* `Base58.encode` and `Base58.decode` are `rebase` between bytes and an alphabet
  of 58 characters, so each is the other's inverse (`Base58.decode_encode`,
  `Base58.encode_of_decode`).
-/

set_option autoImplicit false

namespace Nockchain.Lib

open List Nat UInt8

/-! ### Taking digits off a number -/

/-- The `k` lowest digits of `v` in base `b`, lowest first, and the quotient left over. -/
def peel (b : Nat) : Nat → Nat → List Nat × Nat
  | 0, v => ([], v)
  | k + 1, v => (v % b :: (peel b k (v / b)).1, (peel b k (v / b)).2)

theorem peel_snd (b : Nat) : ∀ k v, (peel b k v).2 = v / b ^ k := by
  intro k
  induction k with
  | zero => intro v; simp [peel]
  | succ k ih =>
    intro v
    show (peel b k (v / b)).2 = _
    rw [ih, Nat.div_div_eq_div_mul, ← pow_succ']

@[simp] theorem length_peel (b : Nat) : ∀ k v, (peel b k v).1.length = k := by
  intro k
  induction k with
  | zero => intro v; rfl
  | succ k ih => intro v; simp [peel, ih]

theorem lt_of_mem_peel {b : Nat} (hb : 0 < b) : ∀ k v, ∀ d ∈ (peel b k v).1, d < b := by
  intro k
  induction k with
  | zero => intro v d hd; simp [peel] at hd
  | succ k ih =>
    intro v d hd
    rcases mem_cons.1 hd with rfl | hd
    · exact mod_lt _ hb
    · exact ih _ d hd

/-- The digits and the quotient make up the number. -/
theorem ofDigits_peel (b : Nat) : ∀ k v,
    ofDigits b (peel b k v).1 + b ^ k * (peel b k v).2 = v := by
  intro k
  induction k with
  | zero => intro v; simp [peel]
  | succ k ih =>
    intro v
    have hrest := ih (v / b)
    show ofDigits b (v % b :: (peel b k (v / b)).1) + b ^ (k + 1) * (peel b k (v / b)).2 = v
    rw [ofDigits_cons, pow_succ', mul_assoc, add_assoc, ← mul_add, hrest]
    exact mod_add_div v b

/-- Digits below the base are recovered, with nothing left over. -/
theorem peel_ofDigits {b : Nat} (ds : List Nat) (hds : ∀ d ∈ ds, d < b) :
    peel b ds.length (ofDigits b ds) = (ds, 0) := by
  induction ds with
  | nil => simp [peel]
  | cons d ds ih =>
    have hd : d < b := hds d (by simp)
    have hrest := ih fun x hx => hds x (by simp [hx])
    have hmod : (d + b * ofDigits b ds) % b = d := by
      rw [add_mul_mod_self_left, mod_eq_of_lt hd]
    have hdiv : (d + b * ofDigits b ds) / b = ofDigits b ds := by
      rw [add_mul_div_left _ _ (by omega), div_eq_of_lt hd, zero_add]
    simp [ofDigits_cons, peel, hmod, hdiv, hrest]

/-! ### From one base to another -/

/-- The number a digit string denotes, highest digit first. -/
def positional (b : Nat) (ds : List Nat) : Nat := ofDigits b ds.reverse

/-- A digit string in base `a`, rewritten in base `b`; leading zeros are kept one for one. -/
def rebase (a b : Nat) (ds : List Nat) : List Nat :=
  replicate (ds.takeWhile (· == 0)).length 0 ++ (b.digits (positional a ds)).reverse

theorem takeWhile_zero (ds : List Nat) :
    ds.takeWhile (· == 0) = replicate (ds.takeWhile (· == 0)).length 0 := by
  refine eq_replicate_of_mem fun d hd => ?_
  have hall := all_takeWhile (p := (· == 0)) (l := ds)
  simpa using all_eq_true.1 hall d hd

/-- Leading zeros add nothing. -/
theorem positional_replicate_append (b k : Nat) (ds : List Nat) :
    positional b (replicate k 0 ++ ds) = positional b ds := by
  rw [positional, reverse_append, reverse_replicate, ofDigits_append_replicate_zero]
  rfl

theorem positional_reverse_digits (b v : Nat) : positional b (b.digits v).reverse = v := by
  rw [positional, reverse_reverse, ofDigits_digits]

/-- The digits of a number do not begin with a zero. -/
theorem takeWhile_reverse_digits (b v : Nat) : ((b.digits v).reverse.takeWhile (· == 0)) = [] := by
  rcases hds : (b.digits v).reverse with - | ⟨d, ds⟩
  · rfl
  have hne : b.digits v ≠ [] := by
    intro h
    rw [h] at hds
    simp at hds
  have hv : v ≠ 0 := by
    rintro rfl
    exact hne (digits_zero b)
  have hlast := getLast_digit_ne_zero b hv
  rw [getLast_eq_head_reverse] at hlast
  simp only [hds, head_cons] at hlast
  simp [hlast]

theorem takeWhile_rebase (a b : Nat) (ds : List Nat) :
    (rebase a b ds).takeWhile (· == 0) = ds.takeWhile (· == 0) := by
  rw [rebase, takeWhile_append_of_pos (by simp +contextual [mem_replicate]),
    takeWhile_reverse_digits, append_nil, ← takeWhile_zero]

theorem positional_rebase (a b : Nat) (ds : List Nat) :
    positional b (rebase a b ds) = positional a ds := by
  rw [rebase, positional_replicate_append, positional_reverse_digits]

variable {ds : List Nat}

/-- A digit string is its leading zeros and the digits of its number. -/
theorem replicate_append_digits {b : Nat} (hb : 1 < b) (hds : ∀ d ∈ ds, d < b) :
    replicate (ds.takeWhile (· == 0)).length 0 ++ (b.digits (positional b ds)).reverse
      = ds := by
  have hsplit := takeWhile_append_dropWhile (p := (· == 0)) (l := ds)
  have hvalue : positional b ds = positional b (ds.dropWhile (· == 0)) := by
    conv_lhs => rw [← hsplit, takeWhile_zero, positional_replicate_append]
  have hdigits : b.digits (positional b (ds.dropWhile (· == 0)))
      = (ds.dropWhile (· == 0)).reverse := by
    refine digits_ofDigits b hb _ ?_ ?_
    · intro d hd
      exact hds d ((dropWhile_sublist _).subset (mem_reverse.1 hd))
    · intro hne
      have hhead := head_dropWhile_not (· == 0) (l := ds) (by simpa using hne)
      simpa using hhead
  rw [hvalue, hdigits, reverse_reverse, ← takeWhile_zero, hsplit]

/-- Rewriting to another base and back changes nothing. -/
theorem rebase_rebase {a b : Nat} (ha : 1 < a) (hds : ∀ d ∈ ds, d < a) :
    rebase b a (rebase a b ds) = ds := by
  have hback := replicate_append_digits ha hds
  rwa [rebase, takeWhile_rebase, positional_rebase]

theorem lt_of_mem_rebase {a b : Nat} (hb : 1 < b) : ∀ d ∈ rebase a b ds, d < b := by
  intro d hd
  rcases mem_append.1 hd with hd | hd
  · rw [(mem_replicate.1 hd).2]
    omega
  · exact digits_lt_base hb (mem_reverse.1 hd)

/-! ### Bytes, highest first -/

/-- The number a byte string denotes, highest byte first. -/
def ofBigEndian (bytes : List UInt8) : Nat := positional 256 (bytes.map toNat)

/-- The bytes of a number, highest first, without leading zeros. -/
def toBigEndian (v : Nat) : List UInt8 := (digits 256 v).reverse.map ofNat

theorem map_toNat_map_ofNat (hds : ∀ d ∈ ds, d < 256) :
    (ds.map ofNat).map toNat = ds := by
  rw [map_map]
  refine (map_congr_left fun d hd => ?_).trans (map_id ds)
  exact toNat_ofNat_of_lt' (hds d hd)

theorem lt_of_mem_map_toNat (bytes : List UInt8) : ∀ d ∈ bytes.map toNat, d < 256 := by
  intro d hd
  obtain ⟨byte, -, rfl⟩ := mem_map.1 hd
  exact byte.toNat_lt

@[simp] theorem ofBigEndian_toBigEndian (v : Nat) : ofBigEndian (toBigEndian v) = v := by
  have hlt : ∀ d ∈ (digits 256 v).reverse, d < 256 := fun d hd =>
    digits_lt_base (by norm_num) (mem_reverse.1 hd)
  rw [ofBigEndian, toBigEndian, map_toNat_map_ofNat hlt, positional_reverse_digits]

/-- A byte string without a leading zero is the bytes of its number. -/
theorem toBigEndian_ofBigEndian {bytes : List UInt8} (h : bytes.head? ≠ some 0) :
    toBigEndian (ofBigEndian bytes) = bytes := by
  have hzeros : (bytes.map toNat).takeWhile (· == 0) = [] := by
    rcases bytes with - | ⟨byte, bytes⟩
    · rfl
    · have hbyte : byte.toNat ≠ 0 := by
        intro h0
        exact h (congrArg some (UInt8.toNat_inj.1 h0))
      simp [hbyte]
  have hback := replicate_append_digits (b := 256) (by norm_num) (lt_of_mem_map_toNat bytes)
  rw [hzeros, length_nil, replicate_zero, nil_append] at hback
  rw [toBigEndian, ofBigEndian, hback, map_map]
  exact (map_congr_left fun byte _ => UInt8.ofNat_toNat).trans (map_id bytes)

/-- The bytes of a number do not begin with a zero. -/
theorem head?_toBigEndian (v : Nat) : (toBigEndian v).head? ≠ some 0 := by
  have hzeros := takeWhile_reverse_digits 256 v
  rcases hds : (digits 256 v).reverse with - | ⟨d, ds⟩
  · simp [toBigEndian, hds]
  have hlt : d < 256 := digits_lt_base (by norm_num) (mem_reverse.1 (by rw [hds]; simp))
  intro h0
  rw [toBigEndian, hds, map_cons, head?_cons, Option.some.injEq] at h0
  have hd : d = 0 := by
    have := congrArg toNat h0
    rwa [toNat_ofNat_of_lt' hlt] at this
  rw [hds, hd] at hzeros
  simp at hzeros

/-! ### Base 58 -/

namespace Base58

/-- The 58 characters, in the order of their values. -/
def alphabet : List Char :=
  "123456789ABCDEFGHJKLMNPQRSTUVWXYZabcdefghijkmnopqrstuvwxyz".toList

/-- The character of a digit. -/
def char (d : Nat) : Char := alphabet.getD d '1'

/-- The digit of a character, if it has one. -/
def digit? (c : Char) : Option Nat := alphabet.idxOf? c

/-- A byte string in base 58. -/
def encode (bytes : List UInt8) : String :=
  String.ofList ((rebase 256 58 (bytes.map toNat)).map char)

/-- The byte string a base 58 string denotes; `none` at a character outside the alphabet. -/
def decode (s : String) : Option (List UInt8) :=
  (s.toList.mapM digit?).map fun ds => (rebase 58 256 ds).map ofNat

theorem digit?_char {d : Nat} (hd : d < 58) : digit? (char d) = some d := by
  have hall : ∀ d < 58, digit? (char d) = some d := by decide +kernel
  exact hall d hd

theorem char_of_digit? {c : Char} {d : Nat} (h : digit? c = some d) : d < 58 ∧ char d = c := by
  rw [digit?, idxOf?, findIdx?_eq_some_iff_getElem] at h
  obtain ⟨hd, hc, -⟩ := h
  have hlen : alphabet.length = 58 := by decide +kernel
  refine ⟨hlen ▸ hd, ?_⟩
  rw [char, getD_eq_getElem?_getD, getElem?_eq_getElem hd]
  exact beq_iff_eq.1 hc

theorem mapM_digit?_map_char (hds : ∀ d ∈ ds, d < 58) : (ds.map char).mapM digit? = some ds := by
  induction ds with
  | nil => rfl
  | cons d ds ih =>
    have hd := digit?_char (hds d (by simp))
    have hrest := ih fun x hx => hds x (by simp [hx])
    simp [hd, hrest]

theorem map_char_of_mapM {cs : List Char} : ∀ {ds : List Nat}, cs.mapM digit? = some ds →
    (∀ d ∈ ds, d < 58) ∧ ds.map char = cs := by
  induction cs with
  | nil =>
    intro ds h
    obtain rfl : ds = [] := by simpa using h.symm
    simp
  | cons c cs ih =>
    intro ds h
    simp only [mapM_cons, Option.bind_eq_bind, Option.bind_eq_some_iff, Option.pure_def,
      Option.some.injEq] at h
    obtain ⟨d, hd, rest, hrest, rfl⟩ := h
    obtain ⟨hlt, hchar⟩ := char_of_digit? hd
    obtain ⟨hltrest, hcharrest⟩ := ih hrest
    exact ⟨by simpa using ⟨hlt, hltrest⟩, by rw [map_cons, hchar, hcharrest]⟩

/-- Decoding undoes encoding. -/
@[simp] theorem decode_encode (bytes : List UInt8) : decode (encode bytes) = some bytes := by
  have hlt : ∀ d ∈ rebase 256 58 (bytes.map toNat), d < 58 := lt_of_mem_rebase (by norm_num)
  rw [decode, encode, String.toList_ofList, mapM_digit?_map_char hlt, Option.map_some,
    rebase_rebase (by norm_num) (lt_of_mem_map_toNat bytes), map_map]
  exact congrArg some
    ((map_congr_left fun byte _ => UInt8.ofNat_toNat).trans (map_id bytes))

/-- A string that decodes is the encoding of what it decodes to. -/
theorem encode_of_decode {s : String} {bytes : List UInt8} (h : decode s = some bytes) :
    encode bytes = s := by
  rw [decode, Option.map_eq_some_iff] at h
  obtain ⟨ds, hds, rfl⟩ := h
  obtain ⟨hlt, hchars⟩ := map_char_of_mapM hds
  rw [encode, map_toNat_map_ofNat (lt_of_mem_rebase (by norm_num)),
    rebase_rebase (by norm_num) hlt, hchars, String.ofList_toList]

theorem encode_injective : Function.Injective encode := by
  intro b b' h
  have hdecode := congrArg decode h
  rwa [decode_encode, decode_encode, Option.some.injEq] at hdecode

/-- The text of a number, without redundant leading digits. -/
def numeral (v : Nat) : String := encode (toBigEndian v)

theorem numeral_injective : Function.Injective numeral := by
  intro v v' h
  have hbytes := encode_injective h
  rw [← ofBigEndian_toBigEndian v, hbytes, ofBigEndian_toBigEndian]

end Base58

end Nockchain.Lib
