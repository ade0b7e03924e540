import Nockchain.Proofs.P2p.Keys

/-!
# `Nockchain.Proofs.P2p.Parse`: peers' nouns through the parsers

Every step of the two parsers is a test that ends in an error, with one exception: the
iterator over the ids of `%heard-elders` panics on a list that does not end in `0`.
`parses_iff` says that this is the only noun a peer can send to stop the driver, and
that an accepted block or transaction is entered under the id the kernel will read.
-/

set_option autoImplicit false

namespace Nockchain.P2p

open Nockchain.Lib Nockchain.Math Nockchain.NounSerde NockchainFact NockchainDataRequest List
open Outcome (mapErr bind_eq_panic ok_bind bind_eq_ok pure_eq)

/-! ### Tags -/

/-- `eq_bytes` compares numbers, for bytes that do not end in a zero. -/
theorem atomEqBytes_iff {a : Nat} {bytes : List UInt8} {last : UInt8} (hlast : last ≠ 0) :
    atomEqBytes a (bytes ++ [last]) ↔ a = ofLittleEndian (bytes ++ [last]) := by
  set b := bytes ++ [last] with hb
  have hzeros : ∀ k, ofLittleEndian (b ++ replicate k 0) = ofLittleEndian b := by
    intro k
    simp [ofLittleEndian]
  constructor
  · intro h
    simp only [atomEqBytes] at h
    split_ifs at h with hgt heq hany
    · rw [← beq_iff_eq.1 h, ofLittleEndian_asNeBytes]
    have hdrop : (asNeBytes a).drop b.length
        = replicate ((asNeBytes a).drop b.length).length 0 := by
      refine eq_replicate_of_mem fun x hx => ?_
      by_contra hne
      exact hany (any_eq_true.2 ⟨x, hx, by simpa using hne⟩)
    have hsplit := take_append_drop b.length (asNeBytes a)
    rw [beq_iff_eq.1 h, hdrop] at hsplit
    rw [← ofLittleEndian_asNeBytes a, ← hsplit, hzeros]
  · rintro rfl
    have hwords := words_ofLittleEndian (b := bytes) hlast
    rw [← hb] at hwords
    have hlen : b.length = bytes.length + 1 := by simp [hb]
    obtain ⟨k, hk⟩ : ∃ k, b.length + k = 8 * words (ofLittleEndian b) :=
      ⟨8 * words (ofLittleEndian b) - b.length, by omega⟩
    simp only [atomEqBytes, asNeBytes_ofLittleEndian hk]
    rw [if_neg (by simp)]
    split_ifs with heq hany
    · have hpad : (b ++ replicate k (0 : UInt8)).length = b.length + k := by simp
      obtain rfl : k = 0 := by omega
      simp
    · simp at hany
    · simp

/-- The tag of a list of elders is one atom. -/
theorem eqBytes_heardElders {noun : Noun} :
    eqBytes noun "heard-elders" ↔ noun = .atom (Noun.tas "heard-elders") := by
  cases noun with
  | cell h t => simp [eqBytes]
  | atom a =>
    have htext : strBytes "heard-elders" = (strBytes "heard-elders").dropLast ++ [115] := by
      decide +kernel
    have hvalue : ofLittleEndian (strBytes "heard-elders") = Noun.tas "heard-elders" := by
      decide +kernel
    rw [eqBytes, htext, atomEqBytes_iff (by decide), ← htext, hvalue, Noun.atom.injEq]

/-! ### Ids -/

/-- `[@ux @ux @ux @ux @ux]`. -/
def readDigest : Noun → Option Digest
  | .cell (.atom a) (.cell (.atom b) (.cell (.atom c) (.cell (.atom d) (.atom e)))) =>
    some ⟨a, b, c, d, e⟩
  | _ => none

/-- The id the kernel reads from a page or a raw transaction, of the type
`$^(v0 v1)`: the head if it is a cell, and what follows the version `%1` otherwise. -/
def kernelId : Noun → Option Digest
  | .cell (.cell h t) _ => readDigest (.cell h t)
  | .cell (.atom v) (.cell id _) => if v = 1 then readDigest id else none
  | _ => none

/-- The text of an id is that of the digest the kernel reads from the same noun. -/
theorem exists_readDigest {n : Noun} {s : String} (h : tip5HashToBase58 n = .ok s) :
    ∃ id, readDigest n = some id ∧ s = Base58.numeral id.toAtom := by
  obtain ⟨words, hwords, rfl⟩ := tip5HashToBase58_eq_ok.1 h
  have hnoun := arrayToNoun_of_ok hwords
  obtain ⟨a, words, rfl⟩ := words.exists_eq_cons
  obtain ⟨b, words, rfl⟩ := words.exists_eq_cons
  obtain ⟨c, words, rfl⟩ := words.exists_eq_cons
  obtain ⟨d, words, rfl⟩ := words.exists_eq_cons
  obtain ⟨e, words, rfl⟩ := words.exists_eq_cons
  obtain rfl := List.Vector.eq_nil words
  obtain rfl : Noun.cell (.atom a.toNat) (.cell (.atom b.toNat) (.cell (.atom c.toNat)
      (.cell (.atom d.toNat) (.atom e.toNat)))) = n := by
    simpa [arrayToNoun, u64ToNoun] using hnoun
  refine ⟨⟨a.toNat, b.toNat, c.toNat, d.toNat, e.toNat⟩, rfl, congrArg _ ?_⟩
  simp only [basePToDecimal_eq, List.Vector.toList_cons, List.Vector.toList_nil, map_cons,
    map_nil, Nat.ofDigits_cons, Nat.ofDigits_nil, Digest.toAtom]
  ring

/-- What the driver takes for the id of a page or transaction is what the kernel reads. -/
theorem exists_kernelId {what : String} {n id : Noun} {s : String}
    (hid : idFromVersioned what n = .ok id) (h : tip5HashToBase58 id = .ok s) :
    ∃ digest, kernelId n = some digest ∧ s = Base58.numeral digest.toAtom := by
  obtain ⟨digest, hdigest, hs⟩ := exists_readDigest h
  refine ⟨digest, ?_, hs⟩
  rw [← hdigest]
  cases n with
  | atom a => simp [idFromVersioned, getCell, asCell, mapErr] at hid
  | cell head tail =>
    cases head with
    | cell hd tl =>
      obtain rfl : Noun.cell hd tl = id := by
        simpa [idFromVersioned, getCell, asCell, asAtom, mapErr] using hid
      rfl
    | atom v =>
      simp only [idFromVersioned, getCell, asCell, asAtom, mapErr, ok_bind,
        bind_eq_ok] at hid
      obtain ⟨version, hversion, hid⟩ := hid
      split_ifs at hid with hone
      have hv : asU64 v = .ok version := by
        cases hcase : asU64 v <;> simp [hcase] at hversion ⊢
        exact hversion
      obtain rfl : v = 1 := by
        rw [asU64_eq_ok.1 hv, hone]
        rfl
      cases tail with
      | atom a => simp at hid
      | cell i rest =>
        obtain rfl : i = id := by simpa using hid
        rfl

theorem getCell_ne_panic (n : Noun) : getCell n ≠ .panic := by
  cases n <;> simp [getCell, asCell, mapErr]

theorem mapErr_asU64_ne_panic {ε : Type} (f : NounError → ε) (a : Nat) :
    (asU64 a).mapErr f ≠ .panic := by
  unfold asU64
  split_ifs <;> simp [mapErr]

theorem getU64_ne_panic (n : Noun) : getU64 n ≠ .panic := by
  cases n with
  | cell h t => simp [getU64, asAtom, mapErr]
  | atom a => exact mapErr_asU64_ne_panic _ a

theorem idFromVersioned_ne_panic (what : String) (n : Noun) : idFromVersioned what n ≠ .panic := by
  intro h
  simp only [idFromVersioned, bind_eq_panic, getCell_ne_panic, false_or] at h
  obtain ⟨⟨head, tail⟩, -, h⟩ := h
  split at h
  · simp only [bind_eq_panic, mapErr_asU64_ne_panic, false_or] at h
    obtain ⟨version, -, h⟩ := h
    split_ifs at h
    simp [bind_eq_panic, getCell_ne_panic] at h
  · simp at h

/-! ### Facts -/

/-- A list of ids that does not end in `0`. -/
def Unterminated (ids : Noun) : Prop :=
  ListJams (fun _ => False) (InArray (Below (2 ^ 64)) (fun _ => True) 5) ids

/-- The iterator panics at the terminator, once every item before it could be read. -/
theorem listIter_eq_panic_iff (ids : Noun) :
    listIter tip5HashToBase58 ids = .panic ↔ Unterminated ids := by
  induction ids with
  | atom a =>
    simp only [listIter, Unterminated, ListJams]
    split_ifs with ha <;> simp [ha]
  | cell hd tl _ ih =>
    have hok : (∃ s, tip5HashToBase58 hd = .ok s)
        ↔ InArray (Below (2 ^ 64)) (fun _ => True) 5 hd := by
      rw [← (reads_u64.array 5).ok_iff]
      constructor
      · rintro ⟨s, hs⟩
        obtain ⟨words, hwords, -⟩ := tip5HashToBase58_eq_ok.1 hs
        exact ⟨words, hwords⟩
      · rintro ⟨words, hwords⟩
        exact ⟨_, tip5HashToBase58_eq_ok.2 ⟨words, hwords, rfl⟩⟩
    have hcell : Unterminated (.cell hd tl) ↔ (∃ s, tip5HashToBase58 hd = .ok s) ∧ Unterminated tl := by
      rw [hok]
      simp [Unterminated, ListJams]
    rw [hcell, ← ih]
    simp [listIter, bind_eq_panic, tip5HashToBase58_ne_panic]

/-- The fact `[%heard-elders oldest ids]` with such a list. -/
def BadElders (n : Noun) : Prop :=
  ∃ oldest ids, n = .cell (.atom (Noun.tas "heard-elders")) (.cell (.atom oldest) ids) ∧
    oldest < 2 ^ 64 ∧ Unterminated ids

/-- The only panic is that of the list of elders; any other malformed part is an error. -/
theorem fromNounSlab_eq_panic_iff (n : Noun) :
    fromNounSlab n = .panic ↔ BadElders n := by
  cases n with
  | atom a => simp [fromNounSlab, getCell, asCell, mapErr, BadElders]
  | cell head tail =>
    simp only [fromNounSlab, getCell, asCell, mapErr, ok_bind]
    by_cases hhead : head = .atom (Noun.tas "heard-elders")
    · subst hhead
      -- Only this branch reads a list.
      have hnot : eqBytes (.atom (Noun.tas "heard-elders")) "heard-block" = false := by
        decide +kernel
      have hnot' : eqBytes (.atom (Noun.tas "heard-elders")) "heard-tx" = false := by
        decide +kernel
      rw [hnot, hnot', eqBytes_heardElders.2 rfl]
      cases tail with
      | atom a => simp [BadElders]
      | cell oldest ids =>
        cases oldest with
        | cell h t => simp [BadElders, getU64, asAtom, mapErr]
        | atom oldest =>
          have hbad : BadElders (.cell (.atom (Noun.tas "heard-elders"))
              (.cell (.atom oldest) ids)) ↔ oldest < 2 ^ 64 ∧ Unterminated ids := by
            simp [BadElders]
          have hgood : (∃ x, getU64 (.atom oldest) = .ok x) ↔ oldest < 2 ^ 64 := by
            simp only [getU64, asAtom, mapErr, ok_bind, asU64]
            split_ifs with h <;> simpa using h
          rw [hbad, ← hgood, ← listIter_eq_panic_iff]
          simp [bind_eq_panic, getU64_ne_panic]
    · have hbad : ¬ BadElders (.cell head tail) := by
        rintro ⟨oldest, ids, heq, -⟩
        exact hhead (Noun.cell.inj heq).1
      have hnot : ¬ eqBytes head "heard-elders" := fun h => hhead (eqBytes_heardElders.1 h)
      simp only [hbad, iff_false, if_neg hnot]
      split_ifs
      · simp [bind_eq_panic, blockIdFromPage, idFromVersioned_ne_panic,
          tip5HashToBase58_ne_panic]
      · simp [bind_eq_panic, txIdFromRawTx, idFromVersioned_ne_panic,
          tip5HashToBase58_ne_panic]
      · simp

/-- The parser returns, and an accepted block or transaction has the id the kernel
reads. -/
structure Parses (n : Noun) : Prop where
  ne_panic : fromNounSlab n ≠ .panic
  heardBlock : ∀ s poke, fromNounSlab n = .ok (.heardBlock s poke) →
    ∃ head page id, n = .cell head page ∧ kernelId page = some id ∧ s = Base58.numeral id.toAtom
  heardTx : ∀ s poke, fromNounSlab n = .ok (.heardTx s poke) →
    ∃ head rawTx id, n = .cell head rawTx ∧ kernelId rawTx = some id ∧ s = Base58.numeral id.toAtom

theorem peerIdFromNoun_ne_panic {PeerId : Type} (fromStr : String → Option PeerId) (n : Noun) :
    peerIdFromNoun fromStr n ≠ .panic := by
  cases n with
  | cell h t => simp [peerIdFromNoun, asAtom, mapErr]
  | atom a =>
    simp only [peerIdFromNoun, asAtom, mapErr, ok_bind]
    split
    · simp
    · split <;> simp

theorem exists_of_heardBlock {n : Noun} {s : String} {poke : Noun}
    (h : fromNounSlab n = .ok (.heardBlock s poke)) :
    ∃ head page id, n = .cell head page ∧ blockIdFromPage page = .ok id ∧
      tip5HashToBase58 id = .ok s := by
  cases n with
  | atom a => simp [fromNounSlab, getCell, asCell, mapErr] at h
  | cell head tail =>
    simp only [fromNounSlab, getCell, asCell, mapErr, ok_bind] at h
    split_ifs at h
    · simp only [bind_eq_ok, pure_eq, Outcome.ok.injEq,
        heardBlock.injEq] at h
      obtain ⟨id, hid, key, hkey, rfl, -⟩ := h
      exact ⟨head, tail, id, rfl, hid, hkey⟩
    all_goals simp [bind_eq_ok] at h

theorem exists_of_heardTx {n : Noun} {s : String} {poke : Noun}
    (h : fromNounSlab n = .ok (.heardTx s poke)) :
    ∃ head rawTx id, n = .cell head rawTx ∧ txIdFromRawTx rawTx = .ok id ∧
      tip5HashToBase58 id = .ok s := by
  cases n with
  | atom a => simp [fromNounSlab, getCell, asCell, mapErr] at h
  | cell head tail =>
    simp only [fromNounSlab, getCell, asCell, mapErr, ok_bind] at h
    split_ifs at h
    · simp [bind_eq_ok] at h
    · simp only [bind_eq_ok, pure_eq, Outcome.ok.injEq,
        heardTx.injEq] at h
      obtain ⟨id, hid, key, hkey, rfl, -⟩ := h
      exact ⟨head, tail, id, rfl, hid, hkey⟩
    · simp [bind_eq_ok] at h

/-- Requests never panic. -/
theorem request_ne_panic {PeerId : Type} (fromStr : String → Option PeerId) (n : Noun) :
    fromNoun fromStr n ≠ .panic := by
  have hparse : parse fromStr n ≠ .panic := by
    intro h
    simp only [parse, bind_eq_panic, getCell_ne_panic, false_or] at h
    obtain ⟨⟨tag, kind⟩, -, h⟩ := h
    split_ifs at h
    simp only [bind_eq_panic, getCell_ne_panic, false_or] at h
    obtain ⟨⟨kind, data⟩, -, h⟩ := h
    split_ifs at h
    · simp only [bind_eq_panic, getCell_ne_panic, false_or] at h
      obtain ⟨⟨block, data⟩, -, h⟩ := h
      split_ifs at h
      · simp [bind_eq_panic, getU64_ne_panic] at h
      · simp [bind_eq_panic, getCell_ne_panic, tip5HashToBase58_ne_panic,
          peerIdFromNoun_ne_panic] at h
    · simp [bind_eq_panic, getCell_ne_panic, tip5HashToBase58_ne_panic] at h
  unfold fromNoun
  cases hcase : parse fromStr n with
  | ok request | err e => simp [mapErr]
  | panic => exact absurd hcase hparse

/-- A peer's noun is parsed as it should be exactly when it is not a list of elders with
another end than `0`; requests never panic. -/
theorem parses_iff (n : Noun) : (Parses n ↔ ¬ BadElders n) ∧
    ∀ {PeerId : Type} (fromStr : String → Option PeerId),
      NockchainDataRequest.fromNoun fromStr n ≠ .panic := by
  refine ⟨?_, fun fromStr => request_ne_panic fromStr n⟩
  rw [← fromNounSlab_eq_panic_iff]
  constructor
  · exact fun h => h.ne_panic
  intro h
  refine ⟨h, ?_, ?_⟩
  · intro s poke hs
    obtain ⟨head, page, id, rfl, hid, hkey⟩ := exists_of_heardBlock hs
    obtain ⟨digest, hdigest, hs⟩ := exists_kernelId hid hkey
    exact ⟨head, page, digest, rfl, hdigest, hs⟩
  · intro s poke hs
    obtain ⟨head, rawTx, id, rfl, hid, hkey⟩ := exists_of_heardTx hs
    obtain ⟨digest, hdigest, hs⟩ := exists_kernelId hid hkey
    exact ⟨head, rawTx, digest, rfl, hdigest, hs⟩

/-- The elders `[%heard-elders 0 1]` stop the driver. -/
theorem not_parses_elders :
    ¬ Parses (.cell (.atom (Noun.tas "heard-elders")) (.cell (.atom 0) (.atom 1))) := by
  intro h
  exact h.ne_panic (by decide +kernel)

end Nockchain.P2p
