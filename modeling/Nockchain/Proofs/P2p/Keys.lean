import Nockchain.P2p.Driver
import Nockchain.Proofs.Types.HashBase58
import Nockchain.Proofs.NounSerde.Lossless

/-!
# `Nockchain.Proofs.P2p.Keys`: what a cache key stands for

A key is made from five words, read as digits in base `p`. Nothing checks that the words
are digits, and the words of an id come from a peer. Where all five are below the prime
the key gives them back (`recovers_iff_words`), so the key stands for one id; a word that is
too large carries into the next and another id has the same key.

For the caches this is a statement about whole runs: `served_of_run` says that if every
id the driver handled was canonical, whatever a cache holds under the key of a canonical
id was put there for that id.
-/

set_option autoImplicit false

namespace Nockchain.P2p

open Nockchain.Lib Nockchain.Math Nockchain.NounSerde List Outcome

/-! ### Keys -/

variable {n : Noun}

theorem tip5HashToBase58_eq_ok {s : String} : tip5HashToBase58 n = .ok s ↔
    ∃ words, arrayFromNoun u64FromNoun 5 n = .ok words ∧
      s = Base58.numeral (basePToDecimal words.toList) := by
  unfold tip5HashToBase58
  cases arrayFromNoun u64FromNoun 5 n <;> simp [mapErr, ubigToBase58, eq_comm]

theorem arrayFromNoun_ne_panic (k : Nat) (n : Noun) : arrayFromNoun u64FromNoun k n ≠ .panic := by
  have hjams : ∀ (k : Nat) (n : Noun),
      ¬ ArrayJams (fun _ => False) (Below (2 ^ 64)) k n := by
    intro k
    induction k with
    | zero => intro n h; exact h
    | succ k ih =>
      intro n h
      cases k with
      | zero => exact h
      | succ k =>
        cases n with
        | atom a => exact h
        | cell hd tl =>
          rcases h with h | ⟨-, h⟩
          · exact h
          · exact ih tl h
  intro h
  exact hjams k n (((reads_u64.array k).panic_iff n).1 h)

theorem tip5HashToBase58_ne_panic (n : Noun) : tip5HashToBase58 n ≠ .panic := by
  have h := arrayFromNoun_ne_panic 5 n
  unfold tip5HashToBase58
  cases harray : arrayFromNoun u64FromNoun 5 n with
  | ok words | err e => simp [mapErr]
  | panic => exact absurd harray h

/-- What holds of the elements of a nonempty array of words holds of the words. -/
theorem inArray_iff {p q : Noun → Prop} : ∀ {k : Nat} {n : Noun} {words : List.Vector UInt64 (k + 1)},
    arrayFromNoun u64FromNoun (k + 1) n = .ok words →
    (InArray p q (k + 1) n ↔ ∀ w ∈ words.toList, p (.atom w.toNat)) := by
  intro k
  induction k with
  | zero =>
    intro n words h
    simp only [arrayFromNoun, bind_eq_ok, pure_eq, ok.injEq] at h
    obtain ⟨w, hw, rfl⟩ := h
    obtain rfl := u64FromNoun_eq_ok.1 hw
    simp [InArray]
  | succ k ih =>
    intro n words h
    cases n with
    | atom a => simp [arrayFromNoun] at h
    | cell hd tl =>
      simp only [arrayFromNoun, bind_eq_ok, pure_eq, ok.injEq] at h
      obtain ⟨w, hw, rest, hrest, rfl⟩ := h
      obtain rfl := u64FromNoun_eq_ok.1 hw
      rw [InArray, ih hrest, List.Vector.toList_cons, forall_mem_cons]

/-- A noun of five words is written back from them. -/
theorem arrayToNoun_of_ok {words : List.Vector UInt64 5}
    (h : arrayFromNoun u64FromNoun 5 n = .ok words) : arrayToNoun u64ToNoun words.toList = some n :=
  ((reads_u64.array 5).enc_iff h).2 ((inArray_iff h).2 fun w _ => w.toNat_lt)

theorem arrayFromNoun_injective {n n' : Noun} {words : List.Vector UInt64 5}
    (h : arrayFromNoun u64FromNoun 5 n = .ok words)
    (h' : arrayFromNoun u64FromNoun 5 n' = .ok words) : n = n' :=
  Option.mem_unique (arrayToNoun_of_ok h) (arrayToNoun_of_ok h')

/-- An id whose words are all below the prime. -/
def CanonicalId (n : Noun) : Prop := InArray (Below basePrime) (fun _ => True) 5 n

/-- Going back from the key of an id gives its five words. -/
def Recovers (n : Noun) : Prop :=
  ∀ s words, tip5HashToBase58 n = .ok s → arrayFromNoun u64FromNoun 5 n = .ok words →
    ∃ value, base58ToUbig s = .ok value ∧ decimalToTip5 value = words

theorem base58ToUbig_numeral (v : Nat) : base58ToUbig (Base58.numeral v) = .ok v := by
  simp [base58ToUbig, Base58.numeral]

/-- The words come back exactly from the key of a canonical id. -/
theorem recovers_iff_words {s : String} (h : tip5HashToBase58 n = .ok s) :
    Recovers n ↔ CanonicalId n := by
  obtain ⟨words, hwords, rfl⟩ := tip5HashToBase58_eq_ok.1 h
  have hiff := decimalToBaseP_basePToDecimal_iff words
  rw [CanonicalId, inArray_iff hwords]
  show _ ↔ ∀ w ∈ words.toList, w.toNat < basePrime
  rw [← hiff]
  constructor
  · intro hrec
    obtain ⟨value, hvalue, hback⟩ := hrec _ words h hwords
    rw [base58ToUbig_numeral, ok.injEq] at hvalue
    rwa [← hvalue] at hback
  · intro hback s' words' hs' hwords'
    obtain rfl : words = words' := ok.inj (hwords.symm.trans hwords')
    obtain rfl := ok.inj (h.symm.trans hs')
    exact ⟨_, base58ToUbig_numeral _, hback⟩

/-- Canonical ids with one key are one id. -/
theorem eq_of_key_eq {n n' : Noun} {s : String} (h : tip5HashToBase58 n = .ok s)
    (h' : tip5HashToBase58 n' = .ok s) (hn : CanonicalId n) (hn' : CanonicalId n') : n = n' := by
  obtain ⟨words, hwords, hs⟩ := tip5HashToBase58_eq_ok.1 h
  obtain ⟨words', hwords', hs'⟩ := tip5HashToBase58_eq_ok.1 h'
  obtain ⟨value, hvalue, hback⟩ := (recovers_iff_words h).2 hn _ _ h hwords
  obtain ⟨value', hvalue', hback'⟩ := (recovers_iff_words h').2 hn' _ _ h' hwords'
  obtain rfl : value = value' := ok.inj (hvalue.symm.trans hvalue')
  obtain rfl : words = words' := hback.symm.trans hback'
  exact arrayFromNoun_injective hwords hwords'

/-! ### Caches -/

/-- What is remembered under the key of `n` was remembered for `n`. -/
structure Served (ops : List CacheOp) (state : P2PState) (n : Noun) (key : String) : Prop where
  seenBlocks : key ∈ state.seenBlocks → .seenBlock n ∈ ops
  seenTxs : key ∈ state.seenTxs → .seenTx n ∈ ops
  txCache : ∀ slab, state.txCache.lookup key = some slab → .cacheTx n slab ∈ ops
  eldersCache : ∀ slab, state.eldersCache.lookup key = some slab → .cacheElders n slab ∈ ops
  eldersNegativeCache : key ∈ state.eldersNegativeCache → .noElders n ∈ ops

theorem Served.empty (n : Noun) (key : String) : Served [] {} n key := by
  constructor <;> simp

variable {ops : List CacheOp} {key : String} {state : P2PState}

theorem Served.mono
    (h : Served ops state n key) (op : CacheOp) : Served (ops ++ [op]) state n key where
  seenBlocks hmem := mem_append_left _ (h.seenBlocks hmem)
  seenTxs hmem := mem_append_left _ (h.seenTxs hmem)
  txCache slab hslab := mem_append_left _ (h.txCache slab hslab)
  eldersCache slab hslab := mem_append_left _ (h.eldersCache slab hslab)
  eldersNegativeCache hmem := mem_append_left _ (h.eldersNegativeCache hmem)

theorem Served.withKey {n id : Noun} {f : String → P2PState} (h : Served ops state n key)
    (hf : ∀ k, tip5HashToBase58 id = .ok k → Served ops (f k) n key) :
    Served ops (state.withKey id f) n key := by
  unfold P2PState.withKey
  split
  · exact hf _ ‹_›
  · exact h

/-- An operation on another canonical id writes under another key. -/
theorem Served.apply
    (h : Served ops state n key) (hn : CanonicalId n) (hkey : tip5HashToBase58 n = .ok key)
    {op : CacheOp} (hop : ∀ id, op.id? = some id → CanonicalId id) :
    Served (ops ++ [op]) (state.apply op) n key := by
  have hmono := h.mono op
  have hlast : op ∈ ops ++ [op] := by simp
  -- an entry under the key is one for the id itself
  have hsame : ∀ id, op.id? = some id → tip5HashToBase58 id = .ok key → id = n :=
    fun id hid hk => eq_of_key_eq hk hkey (hop id hid) hn
  cases op with
  | seenBlock id =>
    refine hmono.withKey fun k hk => ?_
    refine { hmono with seenBlocks := fun hmem => ?_ }
    rcases Finset.mem_insert.1 hmem with rfl | hmem
    · obtain rfl := hsame id rfl hk
      exact hlast
    · exact hmono.seenBlocks hmem
  | seenTx id =>
    refine hmono.withKey fun k hk => ?_
    refine { hmono with seenTxs := fun hmem => ?_ }
    rcases Finset.mem_insert.1 hmem with rfl | hmem
    · obtain rfl := hsame id rfl hk
      exact hlast
    · exact hmono.seenTxs hmem
  | cacheTx id slab =>
    refine hmono.withKey fun k hk => ?_
    refine { hmono with txCache := fun slab' hslab => ?_ }
    by_cases hkk : key = k
    · subst hkk
      rw [Finmap.lookup_insert, Option.some.injEq] at hslab
      obtain rfl := hsame id rfl hk
      exact hslab ▸ hlast
    · exact hmono.txCache slab' (by rwa [Finmap.lookup_insert_of_ne _ hkk] at hslab)
  | cacheElders id slab =>
    refine hmono.withKey fun k hk => ?_
    refine { hmono with eldersCache := fun slab' hslab => ?_ }
    by_cases hkk : key = k
    · subst hkk
      rw [Finmap.lookup_insert, Option.some.injEq] at hslab
      obtain rfl := hsame id rfl hk
      exact hslab ▸ hlast
    · exact hmono.eldersCache slab' (by rwa [Finmap.lookup_insert_of_ne _ hkk] at hslab)
  | noElders id =>
    refine hmono.withKey fun k hk => ?_
    refine { hmono with eldersNegativeCache := fun hmem => ?_ }
    rcases Finset.mem_insert.1 hmem with rfl | hmem
    · obtain rfl := hsame id rfl hk
      exact hlast
    · exact hmono.eldersNegativeCache hmem
  | forgetTx id =>
    refine hmono.withKey fun k hk => ?_
    exact { hmono with seenTxs := fun hmem => hmono.seenTxs (Finset.mem_of_mem_erase hmem) }
  | clearSeenTxs =>
    exact { hmono with seenTxs := fun hmem => absurd hmem (by simp [P2PState.apply]) }
  | clearElders =>
    exact { hmono with
      eldersCache := fun _ hslab => absurd hslab (by simp [P2PState.apply])
      eldersNegativeCache := fun hmem => absurd hmem (by simp [P2PState.apply]) }

/-- In a run in which every id is canonical, the caches hold under the key of a canonical
id only what was put there for it. -/
theorem served_of_run (hops : ∀ op ∈ ops, ∀ id, op.id? = some id → CanonicalId id)
    (hn : CanonicalId n) (hkey : tip5HashToBase58 n = .ok key) :
    Served ops (ops.foldl P2PState.apply {}) n key := by
  induction ops using reverseRecOn with
  | nil => exact Served.empty n key
  | append_singleton ops op ih =>
    rw [foldl_append, foldl_cons]
    refine (ih fun op hop => hops op (by simp [hop])).apply hn hkey ?_
    exact hops op (by simp)

/-- Of the keys of two ids, each gives its words back exactly if its id is canonical; if
both are, one key means one id; and in a run over canonical ids no cache entry is shared. -/
theorem keys_identify (n n' : Noun) (s s' : String) (h : tip5HashToBase58 n = .ok s)
    (h' : tip5HashToBase58 n' = .ok s') :
    (Recovers n ↔ CanonicalId n) ∧ (Recovers n' ↔ CanonicalId n') ∧
    (CanonicalId n → CanonicalId n' → s = s' → n = n') ∧
    (CanonicalId n → ∀ ops : List CacheOp, (∀ op ∈ ops, ∀ id, op.id? = some id → CanonicalId id) →
      Served ops (ops.foldl P2PState.apply {}) n s) := by
  refine ⟨recovers_iff_words h, recovers_iff_words h', ?_, fun hn ops hops => served_of_run hops hn h⟩
  rintro hn hn' rfl
  exact eq_of_key_eq h h' hn hn'

/-- The id `[a b 0 0 0]`. -/
def shortId (a b : Nat) : Noun :=
  .cell (.atom a) (.cell (.atom b) (.cell (.atom 0) (.cell (.atom 0) (.atom 0))))

/-- The keys of `[1 0 0 0 0]` and `[2 0 0 0 0]`. -/
theorem keys_identify_short : Recovers (shortId 1 0) ∧ Recovers (shortId 2 0) ∧
    tip5HashToBase58 (shortId 1 0) ≠ tip5HashToBase58 (shortId 2 0) := by
  have hcanonical : ∀ a < basePrime, CanonicalId (shortId a 0) := by
    intro a ha
    have hzero : 0 < basePrime := by decide
    exact ⟨ha, hzero, hzero, hzero, hzero⟩
  have hone := hcanonical 1 (by decide)
  have htwo := hcanonical 2 (by decide)
  have hkeys := keys_identify (shortId 1 0) (shortId 2 0) _ _ (by rfl) (by rfl)
  refine ⟨hkeys.1.2 hone, hkeys.2.1.2 htwo, fun heq => ?_⟩
  have hid := hkeys.2.2.1 hone htwo (ok.inj heq)
  exact absurd hid (by decide)

/-- The ids `[p 0 0 0 0]` and `[0 1 0 0 0]` have one key, and it does not give the words
of the first back. -/
theorem not_keys_identify_carry : (∃ s, tip5HashToBase58 (shortId basePrime 0) = .ok s ∧
      tip5HashToBase58 (shortId 0 1) = .ok s) ∧
    shortId basePrime 0 ≠ shortId 0 1 ∧ ¬ Recovers (shortId basePrime 0) := by
  refine ⟨⟨Base58.numeral basePrime, by decide +kernel, by decide +kernel⟩, by decide, fun hrec => ?_⟩
  have hkey : tip5HashToBase58 (shortId basePrime 0) = .ok (Base58.numeral basePrime) := by
    decide +kernel
  have hword : basePrime < basePrime := ((recovers_iff_words hkey).1 hrec).1
  exact absurd hword (lt_irrefl _)

end Nockchain.P2p
