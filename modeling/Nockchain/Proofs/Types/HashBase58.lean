import Nockchain.Math.Belt

/-!
# `Nockchain.Proofs.Types.HashBase58`: which strings are hashes

A hash with canonical words comes back from its text. In the other direction
`from_base58` should accept the numerals of the numbers below `p^5` and nothing else.
It accepts more: what is left of the number after five digits is compared with the
prime, not with zero, and leading zero bytes are read over. `codec_iff` says for which
strings neither matters.
-/

set_option autoImplicit false

/-!
## Five words as a number

`basePToDecimal` is positional notation with digits that may be too large. The words
come back from their number exactly when they are all below the prime
(`decimalToBaseP_basePToDecimal_iff`), and a number comes back from its words exactly
when they hold all of it.
-/

namespace Nockchain.Math

open Nockchain.Lib List

theorem basePrime_lt : basePrime < 2 ^ 64 := by decide

theorem basePToDecimal_eq (words : List UInt64) :
    basePToDecimal words = Nat.ofDigits basePrime (words.map UInt64.toNat) := by
  have hfold : ∀ (words : List UInt64) (k acc : Nat),
      (words.zipIdx k).foldl (fun result x => result + x.1.toNat * basePrime ^ x.2) acc
        = acc + basePrime ^ k * Nat.ofDigits basePrime (words.map UInt64.toNat) := by
    intro words
    induction words with
    | nil => intro k acc; simp
    | cons w words ih =>
      intro k acc
      rw [zipIdx_cons, foldl_cons, ih, map_cons, Nat.ofDigits_cons]
      ring
  have hdecimal := hfold words 0 0
  rwa [pow_zero, one_mul, zero_add] at hdecimal

/-- The words `decimalToBaseP` returns are below the prime. -/
theorem lt_of_mem_decimalToBaseP {n value : Nat} :
    ∀ w ∈ (decimalToBaseP n value).1.toList, w.toNat < basePrime := by
  intro w hw
  obtain ⟨d, hd, rfl⟩ := mem_map.1 hw
  have hlt := lt_of_mem_peel (b := basePrime) (by decide) n value d hd
  rwa [UInt64.toNat_ofNat_of_lt' (hlt.trans basePrime_lt)]

theorem decimalToBaseP_snd (n value : Nat) :
    (decimalToBaseP n value).2 = value / basePrime ^ n := peel_snd _ _ _

/-- The words and the quotient make up the number. -/
theorem basePToDecimal_decimalToBaseP (n value : Nat) :
    basePToDecimal (decimalToBaseP n value).1.toList + basePrime ^ n * (value / basePrime ^ n)
      = value := by
  have hwords : (decimalToBaseP n value).1.toList.map UInt64.toNat = (peel basePrime n value).1 := by
    show ((peel basePrime n value).1.map UInt64.ofNat).map UInt64.toNat = _
    rw [map_map]
    refine (map_congr_left fun d hd => ?_).trans (map_id _)
    have hlt := lt_of_mem_peel (b := basePrime) (by decide) n value d hd
    exact UInt64.toNat_ofNat_of_lt' (hlt.trans basePrime_lt)
  rw [basePToDecimal_eq, hwords, ← peel_snd, ofDigits_peel]

theorem decimalToBaseP_basePToDecimal {n : Nat} {words : List.Vector UInt64 n}
    (h : ∀ w ∈ words.toList, w.toNat < basePrime) :
    decimalToBaseP n (basePToDecimal words.toList) = (words, 0) := by
  have hdigits : ∀ d ∈ words.toList.map UInt64.toNat, d < basePrime := by
    intro d hd
    obtain ⟨w, hw, rfl⟩ := mem_map.1 hd
    exact h w hw
  have hpeel := peel_ofDigits _ hdigits
  rw [length_map, List.Vector.toList_length, ← basePToDecimal_eq] at hpeel
  have hwords : (words.toList.map UInt64.toNat).map UInt64.ofNat = words.toList := by
    rw [map_map]
    exact (map_congr_left fun w _ => UInt64.ofNat_toNat).trans (map_id _)
  refine Prod.ext ?_ ?_
  · apply List.Vector.toList_injective
    show (peel basePrime n (basePToDecimal words.toList)).1.map UInt64.ofNat = _
    rw [hpeel, hwords]
  · show (peel basePrime n (basePToDecimal words.toList)).2 = 0
    rw [hpeel]

/-- Words come back from their number exactly when they are below the prime. -/
theorem decimalToBaseP_basePToDecimal_iff {n : Nat} (words : List.Vector UInt64 n) :
    (decimalToBaseP n (basePToDecimal words.toList)).1 = words ↔
      ∀ w ∈ words.toList, w.toNat < basePrime := by
  constructor
  · intro h w hw
    rw [← h] at hw
    exact lt_of_mem_decimalToBaseP w hw
  · intro h
    rw [decimalToBaseP_basePToDecimal h]

end Nockchain.Math

namespace Nockchain.Types

open Nockchain.Lib Nockchain.Math
open Nockchain.Lib.Base58 (numeral numeral_injective)

/-- A string is a numeral exactly when it decodes to bytes without a leading zero. -/
theorem eq_numeral_iff {s : String} {bytes : List UInt8} (h : Base58.decode s = some bytes)
    {v : Nat} : s = numeral v ↔ bytes.head? ≠ some 0 ∧ v = ofBigEndian bytes := by
  constructor
  · rintro rfl
    rw [numeral, Base58.decode_encode, Option.some.injEq] at h
    subst h
    exact ⟨head?_toBigEndian v, (ofBigEndian_toBigEndian v).symm⟩
  · rintro ⟨hhead, rfl⟩
    rw [numeral, toBigEndian_ofBigEndian hhead, Base58.encode_of_decode h]

namespace Hash

/-- All words below the prime. -/
def Canonical (h : Hash) : Prop := ∀ b ∈ h.belts.toList, basedCheck b.val

theorem toBase58_eq (h : Hash) :
    h.toBase58 = numeral (basePToDecimal (h.belts.map Belt.val).toList) := by
  rw [toBase58, List.Vector.toList_map]

theorem fromBase58_eq {s : String} {bytes : List UInt8} (h : Base58.decode s = some bytes) :
    fromBase58 s = if (basePrime + 1) * basePrime ^ 5 ≤ ofBigEndian bytes
      then .error .providedValueTooLarge
      else .ok ⟨(decimalToBaseP 5 (ofBigEndian bytes)).1.map Belt.mk⟩ := by
  have hover : (decimalToBaseP 5 (ofBigEndian bytes)).2 > basePrime ↔
      (basePrime + 1) * basePrime ^ 5 ≤ ofBigEndian bytes := by
    rw [decimalToBaseP_snd]
    exact Nat.le_div_iff_mul_le (Nat.pow_pos (by decide))
  simp [fromBase58, h, hover]

theorem map_val_map_mk {n : Nat} (words : List.Vector UInt64 n) :
    (words.map Belt.mk).map Belt.val = words := by
  apply List.Vector.toList_injective
  simp

theorem map_mk_map_val {n : Nat} (belts : List.Vector Belt n) :
    (belts.map Belt.val).map Belt.mk = belts := by
  apply List.Vector.toList_injective
  simp

/-- A canonical hash comes back from its text. -/
theorem fromBase58_toBase58 {h : Hash} (hc : h.Canonical) : fromBase58 h.toBase58 = .ok h := by
  have hwords : ∀ w ∈ (h.belts.map Belt.val).toList, w.toNat < basePrime := by
    intro w hw
    obtain ⟨b, hb, rfl⟩ := List.mem_map.1 hw
    simpa [basedCheck] using hc b hb
  have hback := decimalToBaseP_basePToDecimal hwords
  have hdecode : Base58.decode h.toBase58
      = some (toBigEndian (basePToDecimal (h.belts.map Belt.val).toList)) := by
    rw [toBase58_eq, numeral, Base58.decode_encode]
  have hsmall : ¬ (basePrime + 1) * basePrime ^ 5
      ≤ basePToDecimal (h.belts.map Belt.val).toList := by
    intro hle
    have hquot := decimalToBaseP_snd 5 (basePToDecimal (h.belts.map Belt.val).toList)
    rw [hback] at hquot
    have hpos := (Nat.le_div_iff_mul_le (Nat.pow_pos (n := 5) (show 0 < basePrime by decide))).2 hle
    omega
  rw [fromBase58_eq hdecode, ofBigEndian_toBigEndian, if_neg hsmall, hback, map_mk_map_val]

/-- At `s` the codec is what it should be: it accepts exactly the numerals of numbers
below `p^5`, gives their text back, and rejects those of larger numbers as too large. -/
structure CodecAt (s : String) : Prop where
  ok_iff : (∃ h, fromBase58 s = .ok h) ↔ ∃ v < basePrime ^ 5, s = numeral v
  toBase58_of_ok : ∀ h, fromBase58 s = .ok h → h.toBase58 = s
  tooLarge : ∀ v ≥ basePrime ^ 5, s = numeral v → fromBase58 s = .error .providedValueTooLarge

/-- The codec is right at a string exactly when the string has a character outside the
alphabet, or its number is at least `(p + 1) p^5`, or its number is below `p^5` and it
has no leading zero. -/
theorem codecAt_iff (s : String) : CodecAt s ↔ ∀ bytes, Base58.decode s = some bytes →
    (basePrime + 1) * basePrime ^ 5 ≤ ofBigEndian bytes ∨
    ofBigEndian bytes < basePrime ^ 5 ∧ bytes.head? ≠ some 0 := by
  constructor
  · intro hs bytes hbytes
    rcases le_or_gt ((basePrime + 1) * basePrime ^ 5) (ofBigEndian bytes) with hle | hlt
    · exact .inl hle
    right
    have hok : ∃ h, fromBase58 s = .ok h := by
      rw [fromBase58_eq hbytes, if_neg (by omega)]
      exact ⟨_, rfl⟩
    obtain ⟨v, hv, hsv⟩ := hs.ok_iff.1 hok
    obtain ⟨hhead, rfl⟩ := (eq_numeral_iff hbytes).1 hsv
    exact ⟨hv, hhead⟩
  · intro hs
    have hge : basePrime ^ 5 ≤ (basePrime + 1) * basePrime ^ 5 :=
      Nat.le_mul_of_pos_left _ (Nat.succ_pos _)
    rcases hdecode : Base58.decode s with - | bytes
    · -- no numeral has a character outside the alphabet
      have herr : fromBase58 s = .error .base58 := by simp [fromBase58, hdecode]
      have hnot : ∀ v, s ≠ numeral v := by
        rintro v rfl
        rw [numeral] at hdecode
        exact absurd hdecode (by simp)
      refine ⟨?_, ?_, ?_⟩
      · simp [herr, hnot]
      · intro h hh
        simp [herr] at hh
      · intro v _ hsv
        exact absurd hsv (hnot v)
    · have hfrom := fromBase58_eq hdecode
      rcases hs bytes hdecode with hlarge | ⟨hsmall, hhead⟩
      · rw [if_pos hlarge] at hfrom
        refine ⟨?_, ?_, fun _ _ _ => hfrom⟩
        · rw [hfrom]
          constructor
          · rintro ⟨h, hh⟩
            exact absurd hh (by simp)
          · rintro ⟨v, hv, hsv⟩
            obtain ⟨-, rfl⟩ := (eq_numeral_iff hdecode).1 hsv
            omega
        · intro h hh
          simp [hfrom] at hh
      · have hnot : ¬ (basePrime + 1) * basePrime ^ 5 ≤ ofBigEndian bytes := by omega
        have hsv : s = numeral (ofBigEndian bytes) := (eq_numeral_iff hdecode).2 ⟨hhead, rfl⟩
        rw [if_neg hnot] at hfrom
        refine ⟨?_, ?_, ?_⟩
        · exact ⟨fun _ => ⟨_, hsmall, hsv⟩, fun _ => ⟨_, hfrom⟩⟩
        · intro h hh
          rw [hfrom, Except.ok.injEq] at hh
          subst hh
          have hback := basePToDecimal_decimalToBaseP 5 (ofBigEndian bytes)
          rw [Nat.div_eq_of_lt hsmall, mul_zero, add_zero] at hback
          rw [toBase58_eq, map_val_map_mk, hback, ← hsv]
        · intro v hv hsv'
          obtain rfl := numeral_injective (hsv.symm.trans hsv')
          omega

/-- Canonical hashes come back, and the codec is right at exactly those strings. -/
theorem codec_iff (h : Hash) (s : String) : (h.Canonical → fromBase58 h.toBase58 = .ok h) ∧
    (CodecAt s ↔ ∀ bytes, Base58.decode s = some bytes →
      (basePrime + 1) * basePrime ^ 5 ≤ ofBigEndian bytes ∨
      ofBigEndian bytes < basePrime ^ 5 ∧ bytes.head? ≠ some 0) :=
  ⟨fun hc => fromBase58_toBase58 hc, codecAt_iff s⟩

/-- A hash with five different limbs, up to the largest one. -/
def mixedHash : Hash :=
  ⟨⟨[⟨1⟩, ⟨0⟩, ⟨UInt64.ofNat (basePrime - 1)⟩, ⟨2 ^ 32⟩, ⟨58⟩], rfl⟩⟩

/-- The hash comes back from its text, and the codec is right at that text. -/
theorem codec_mixed : fromBase58 mixedHash.toBase58 = .ok mixedHash ∧
    CodecAt mixedHash.toBase58 := by
  obtain ⟨hback, hcodec⟩ := codec_iff mixedHash mixedHash.toBase58
  refine ⟨hback (by unfold Canonical; decide +kernel), hcodec.2 fun bytes hbytes => ?_⟩
  obtain rfl := Option.mem_unique (Base58.decode_encode _) (toBase58_eq mixedHash ▸ hbytes)
  exact .inr (by decide +kernel)

/-- The text of `p^5` is taken for the zero hash, and so is a redundant zero. -/
theorem not_codecAt_overflow :
    (fromBase58 (numeral (basePrime ^ 5)) = .ok ⟨List.Vector.replicate 5 ⟨0⟩⟩ ∧
      ¬ CodecAt (numeral (basePrime ^ 5))) ∧
    fromBase58 "1" = .ok ⟨List.Vector.replicate 5 ⟨0⟩⟩ ∧ ¬ CodecAt "1" := by
  have hover : Base58.decode (numeral (basePrime ^ 5)) = some (toBigEndian (basePrime ^ 5)) :=
    Base58.decode_encode _
  have hone : Base58.decode "1" = some [0] := by decide +kernel
  refine ⟨⟨?_, fun h => ?_⟩, ?_, fun h => ?_⟩
  · rw [fromBase58_eq hover]
    decide +kernel
  · have hcases := (codecAt_iff _).1 h _ hover
    rcases hcases with hle | ⟨hlt, -⟩
    · exact absurd hle (by decide +kernel)
    · exact absurd hlt (lt_irrefl _)
  · rw [fromBase58_eq hone]
    decide +kernel
  · rcases (codecAt_iff _).1 h _ hone with hle | ⟨-, hhead⟩
    · exact absurd hle (by decide +kernel)
    · exact hhead rfl

end Hash

end Nockchain.Types
