import Nockchain.NounSerde.Codec

/-!
# `Nockchain.Proofs.NounSerde.Atoms`: byte strings inside atoms

What becomes of bytes and text in an atom. The number does not know how long the
byte string was: `asNeBytes` returns whole words, so a byte string comes back
(`asNeBytes_ofLittleEndian_iff`) exactly when it fills them. Text is padded in the
same way, and there the padding is trimmed off again (`intoString_makeTas`).
-/

set_option autoImplicit false

namespace Nockchain.NounSerde

open Nockchain.Lib List

/-! ### Bytes -/

@[simp] theorem length_asNeBytes (a : Nat) : (asNeBytes a).length = 8 * words a := by
  simp [asNeBytes]

theorem lt_words (a : Nat) : a < 256 ^ (8 * words a) := by
  have hlog : a.log2 < 64 * words a := by
    rw [words]
    omega
  have ha : a < 2 ^ (64 * words a) := by
    rcases Nat.eq_zero_or_pos a with rfl | hpos
    · exact Nat.two_pow_pos _
    · exact (Nat.log2_lt (by omega)).1 hlog
  calc a < 2 ^ (64 * words a) := ha
    _ = (2 ^ 8) ^ (8 * words a) := by rw [← pow_mul]; congr 1; omega

/-- The words of an atom hold all of it. -/
@[simp] theorem ofLittleEndian_asNeBytes (a : Nat) : ofLittleEndian (asNeBytes a) = a := by
  have hlt := lt_of_mem_peel (b := 256) (by norm_num) (8 * words a) a
  have hsum := ofDigits_peel 256 (8 * words a) a
  have hrest : (peel 256 (8 * words a) a).2 = 0 := by
    rw [peel_snd]
    exact Nat.div_eq_of_lt (lt_words a)
  rw [hrest, mul_zero, add_zero] at hsum
  rw [ofLittleEndian, asNeBytes, map_toNat_map_ofNat hlt, hsum]

theorem ofLittleEndian_append (b b' : List UInt8) :
    ofLittleEndian (b ++ b') = ofLittleEndian b + 256 ^ b.length * ofLittleEndian b' := by
  simp [ofLittleEndian, Nat.ofDigits_append]

theorem ofLittleEndian_lt (b : List UInt8) : ofLittleEndian b < 256 ^ b.length := by
  have := Nat.ofDigits_lt_base_pow_length (b := 256) (by norm_num) (lt_of_mem_map_toNat b)
  simpa [ofLittleEndian] using this

/-- The bytes of an atom, for a byte string that filled words up to `k` zeros. -/
theorem asNeBytes_ofLittleEndian {b : List UInt8} {k : Nat}
    (hlen : b.length + k = 8 * words (ofLittleEndian b)) :
    asNeBytes (ofLittleEndian b) = b ++ replicate k 0 := by
  have hvalue : ofLittleEndian (b ++ replicate k 0) = ofLittleEndian b := by
    simp [ofLittleEndian]
  have hpeel := peel_ofDigits (b := 256) _ (lt_of_mem_map_toNat (b ++ replicate k 0))
  rw [← ofLittleEndian, hvalue, length_map, length_append, length_replicate,
    hlen] at hpeel
  rw [asNeBytes, hpeel, map_map]
  exact (map_congr_left fun byte _ => UInt8.ofNat_toNat).trans (map_id _)

/-- The words of a byte string that does not end in a zero byte. -/
theorem words_ofLittleEndian {b : List UInt8} {last : UInt8} (hlast : last ≠ 0) :
    words (ofLittleEndian (b ++ [last])) = b.length / 8 + 1 := by
  have hpos : 0 < last.toNat := by
    rcases Nat.eq_zero_or_pos last.toNat with h0 | h0
    · exact absurd (UInt8.toNat_inj.1 h0) hlast
    · exact h0
  have hone : ofLittleEndian [last] = last.toNat := by simp [ofLittleEndian]
  have hlow : 2 ^ (8 * b.length) ≤ ofLittleEndian (b ++ [last]) := by
    rw [ofLittleEndian_append, pow_mul]
    calc (2 ^ 8) ^ b.length = 256 ^ b.length * 1 := by norm_num
      _ ≤ 256 ^ b.length * last.toNat := Nat.mul_le_mul_left _ hpos
      _ ≤ _ := Nat.le_add_left _ _
  have hhigh : ofLittleEndian (b ++ [last]) < 2 ^ (8 * b.length + 8) := by
    have := ofLittleEndian_lt (b ++ [last])
    rw [length_append] at this
    calc _ < 256 ^ (b.length + 1) := this
      _ = 2 ^ (8 * b.length + 8) := by
        rw [show 8 * b.length + 8 = 8 * (b.length + 1) by ring, pow_mul]; norm_num
  have hne : ofLittleEndian (b ++ [last]) ≠ 0 := by
    have := Nat.two_pow_pos (8 * b.length)
    omega
  have hge := (Nat.le_log2 hne).2 hlow
  have hlt := (Nat.log2_lt hne).2 hhigh
  rw [words]
  omega

/-- A byte string that does not end in a zero byte comes back exactly when it fills
its words. -/
theorem asNeBytes_ofLittleEndian_iff {b : List UInt8} (hne : b ≠ [])
    (hlast : b.getLast? ≠ some 0) : asNeBytes (ofLittleEndian b) = b ↔ 8 ∣ b.length := by
  obtain ⟨b, last, rfl⟩ : ∃ b' last, b = b' ++ [last] :=
    ⟨b.dropLast, b.getLast hne, (dropLast_append_getLast hne).symm⟩
  have hzero : last ≠ 0 := by
    rintro rfl
    exact hlast (by simp)
  have hwords := words_ofLittleEndian (b := b) hzero
  constructor
  · intro h
    have hlen := congrArg length h
    rw [length_asNeBytes] at hlen
    exact ⟨_, hlen.symm⟩
  · intro h
    have hlen : (b ++ [last]).length + 0 = 8 * words (ofLittleEndian (b ++ [last])) := by
      rw [length_append, length_singleton] at h ⊢
      omega
    simpa using asNeBytes_ofLittleEndian hlen

/-! ### Text -/

@[simp] theorem fromUtf8_strBytes (s : String) : fromUtf8 (strBytes s) = some s := by
  have hvalid : (⟨(strBytes s).toArray⟩ : ByteArray) = s.toByteArray := by
    simp [strBytes]
  rw [fromUtf8, hvalid, String.fromUTF8?, dif_pos s.isValidUTF8]
  rfl

theorem strBytes_append (s t : String) : strBytes (s ++ t) = strBytes s ++ strBytes t := by
  simp [strBytes, String.toByteArray_append]

theorem strBytes_ofList (cs : List Char) :
    strBytes (String.ofList cs) = cs.flatMap String.utf8EncodeChar := by
  rw [strBytes, String.toByteArray_ofList, utf8Encode]
  simp

/-- A character other than NUL does not end in a zero byte. -/
theorem exists_utf8EncodeChar {c : Char} (hc : c ≠ Char.ofNat 0) :
    ∃ bytes last, String.utf8EncodeChar c = bytes ++ [last] ∧ last ≠ 0 := by
  have hpos : 0 < c.val.toNat := by
    rcases Nat.eq_zero_or_pos c.val.toNat with h0 | h0
    · exact absurd (Char.ext (UInt32.toNat_inj.1 h0)) hc
    · exact h0
  have hofNat : ∀ v, 0 < v → v < 256 → UInt8.ofNat v ≠ 0 := by
    intro v hv hlt h0
    have := congrArg UInt8.toNat h0
    rw [UInt8.toNat_ofNat_of_lt' hlt] at this
    exact absurd this (by simpa using hv.ne')
  unfold String.utf8EncodeChar
  dsimp only
  split_ifs with h1 h2 h3
  · exact ⟨[], _, rfl, hofNat _ hpos (by omega)⟩
  · exact ⟨[_], _, rfl, hofNat _ (by omega) (by omega)⟩
  · exact ⟨[_, _], _, rfl, hofNat _ (by omega) (by omega)⟩
  · exact ⟨[_, _, _], _, rfl, hofNat _ (by omega) (by omega)⟩

/-- Text that keeps its last character does not end in a zero byte. -/
theorem exists_strBytes {s : String} (hne : s ≠ "") (htrim : trimEndNul s = s) :
    ∃ bytes last, strBytes s = bytes ++ [last] ∧ last ≠ 0 := by
  have hlist : s.toList.rdropWhile (· == Char.ofNat 0) = s.toList := by
    have := congrArg String.toList htrim
    rwa [trimEndNul, String.toList_ofList] at this
  have hnil : s.toList ≠ [] := by
    intro h
    exact hne (String.ext (by simpa using h))
  have hlast : s.toList.getLast hnil ≠ Char.ofNat 0 := by
    have := (rdropWhile_eq_self_iff.1 hlist) hnil
    simpa using this
  obtain ⟨bytes, last, hchar, hzero⟩ := exists_utf8EncodeChar hlast
  refine ⟨s.toList.dropLast.flatMap String.utf8EncodeChar ++ bytes, last, ?_, hzero⟩
  conv_lhs =>
    rw [← String.ofList_toList (s := s), strBytes_ofList, ← dropLast_append_getLast hnil]
  simp [hchar]

theorem strBytes_replicate (k : Nat) :
    strBytes (String.ofList (replicate k (Char.ofNat 0))) = replicate k 0 := by
  rw [strBytes_ofList]
  induction k with
  | zero => rfl
  | succ k ih =>
    rw [replicate_succ, flatMap_cons, ih]
    rfl

theorem trimEndNul_append (s : String) (k : Nat) :
    trimEndNul (s ++ String.ofList (replicate k (Char.ofNat 0))) = trimEndNul s := by
  have hdrop : (s.toList ++ replicate k (Char.ofNat 0)).rdropWhile (· == Char.ofNat 0)
      = s.toList.rdropWhile (· == Char.ofNat 0) := by
    induction k with
    | zero => simp
    | succ k ih =>
      rw [replicate_succ', ← append_assoc, rdropWhile_concat_pos _ _ _ (by simp), ih]
  rw [trimEndNul, String.toList_append, String.toList_ofList, hdrop]
  rfl

@[simp] theorem trimEndNul_trimEndNul (s : String) : trimEndNul (trimEndNul s) = trimEndNul s := by
  rw [trimEndNul, trimEndNul, String.toList_ofList, rdropWhile_idempotent]

/-- Text comes back from its atom: the padding is what `trim_end_matches` removes. -/
theorem intoString_makeTas {s : String} {a : Nat} (htrim : trimEndNul s = s)
    (h : makeTas s = some a) : intoString a = some s := by
  rw [makeTas, fromBytes] at h
  split_ifs at h with hnil
  obtain rfl : ofLittleEndian (strBytes s) = a := by simpa using h
  have hne : s ≠ "" := by
    rintro rfl
    exact hnil rfl
  obtain ⟨bytes, last, hbytes, hlast⟩ := exists_strBytes hne htrim
  have hwords := words_ofLittleEndian (b := bytes) hlast
  rw [← hbytes] at hwords
  have hlen : (strBytes s).length = bytes.length + 1 := by rw [hbytes]; simp
  -- the zeros that fill the last word
  obtain ⟨k, hk⟩ : ∃ k, (strBytes s).length + k = 8 * words (ofLittleEndian (strBytes s)) := by
    exact ⟨8 * words (ofLittleEndian (strBytes s)) - (strBytes s).length, by omega⟩
  rw [intoString, asNeBytes_ofLittleEndian hk, ← strBytes_replicate, ← strBytes_append,
    fromUtf8_strBytes, Option.map_some, trimEndNul_append, htrim]

theorem trimEndNul_of_intoString {a : Nat} {s : String} (h : intoString a = some s) :
    trimEndNul s = s := by
  rw [intoString, Option.map_eq_some_iff] at h
  obtain ⟨t, -, rfl⟩ := h
  exact trimEndNul_trimEndNul t

end Nockchain.NounSerde
