import Nockchain.Mem.Heap

/-!
# `Nockchain.Proofs.Mem.Pma`: addressing in the arena

The bump pointer counts words, and the arena converts the lower 32 bits of the
count. In an arena of at most `2 ^ 32` words nothing is lost: the regions of
successive allocations follow each other (`stacked_of_rawAllocs`), and an address in the arena
survives the way through an offset, with or without a tag around it. In a larger
arena the allocation after the first `2 ^ 32` words is placed on the first words
again. `addressing_exact_iff` puts the two together.
-/

set_option autoImplicit false

namespace Nockchain.Mem

/-! ### The constructor -/

/-- An arena as `new` makes it, for a size that the offsets can express. -/
structure Arena.Addressable (arena : Arena) : Prop where
  words_le : arena.words ≤ 2 ^ 32
  base_mod : arena.base % 8 = 0
  base_add_lt : arena.base + 8 * arena.words < 2 ^ 64

theorem Pma.new_eq_some {map : (bytes : Nat) → Option (Mapping bytes)} {sizeWords : Nat} {pma : Pma}
    (h : Pma.new map sizeWords = some pma) :
    pma.allocOffset = 0 ∧ pma.arena.words = sizeWords ∧ pma.arena.base % 8 = 0 ∧
      pma.arena.base + 8 * sizeWords % 2 ^ 64 + 32 ≤ 2 ^ 64 := by
  simp only [Pma.new, Arena.allocateFile, trailerBytes, Nat.shiftLeft_eq, Option.bind_eq_bind,
    Option.pure_def, Option.bind_eq_some_iff, Option.some.injEq, Option.guard_eq_some'] at h
  obtain ⟨arena, ⟨-, -, mapping, -, rfl⟩, rfl⟩ := h
  have hmod := mapping.base_mod
  have hle := mapping.base_add_le
  refine ⟨rfl, rfl, hmod, ?_⟩
  show mapping.base + 8 * sizeWords % 2 ^ 64 + 32 ≤ 2 ^ 64
  omega

theorem Pma.addressable {map : (bytes : Nat) → Option (Mapping bytes)} {sizeWords : Nat} {pma : Pma}
    (h : Pma.new map sizeWords = some pma) (hsize : sizeWords ≤ 2 ^ 32) :
    pma.arena.Addressable := by
  obtain ⟨-, hwords, hmod, hle⟩ := new_eq_some h
  exact ⟨by omega, hmod, by omega⟩

/-! ### Offsets -/

/-- The tag, the location bit and the mask stay out of the lower half of the word. -/
theorem TaggedPtr.setWidth_payload (words : BitVec 32) (kind : Kind) :
    (payload (fromOffset words kind.tag) kind.mask).setWidth 32 = words := by
  have htag : locationBit.setWidth 32 = 0#32 ∧ kind.tag.setWidth 32 = 0#32 := by
    cases kind <;> decide
  have hmask : (~~~(kind.mask ||| locationBit)).setWidth 32 = BitVec.allOnes 32 := by
    cases kind <;> decide
  have hwords : (words.setWidth 64).setWidth 32 = words := by simp
  simp only [payload, fromOffset, BitVec.setWidth_and, BitVec.setWidth_or, htag, hmask, hwords,
    BitVec.or_zero, BitVec.and_allOnes]

namespace Arena.Addressable

variable {arena : Arena} (h : arena.Addressable)
include h

/-- The address of the word with a number in the arena, or of its end. -/
theorem ptrFromOffset_ofNat {n : Nat} (hn : n < 2 ^ 32) (hwords : n ≤ arena.words) :
    arena.ptrFromOffset (.ofNat 32 n) = arena.base + 8 * n := by
  have hlt := h.base_add_lt
  simp only [Arena.ptrFromOffset, BitVec.toNat_ofNat, Nat.mod_eq_of_lt hn, Nat.shiftLeft_eq]
  omega

/-- The number of the word at an address. -/
theorem offsetFromPtr_add {n : Nat} (hn : n < arena.words) :
    arena.offsetFromPtr (arena.base + 8 * n) = .ofNat 32 n := by
  have hlt := h.base_add_lt
  simp only [Arena.offsetFromPtr, Nat.shiftRight_eq_div_pow]
  congr 1
  omega

theorem resolve_fromOffset {n : Nat} (hn : n < arena.words) (kind : Kind) :
    arena.resolve kind (TaggedPtr.fromOffset (.ofNat 32 n) kind.tag) =
      some (arena.base + 8 * n) := by
  have hlt := h.base_add_lt
  have hle := h.words_le
  have hptr : (arena.base + n <<< 3) % 2 ^ 64 = arena.base + 8 * n := by
    omega
  have hlen : arena.lenBytes = 8 * arena.words := by
    rw [Arena.lenBytes]
    omega
  have hoffset : (BitVec.ofNat 32 n).toNat = n := by
    rw [BitVec.toNat_ofNat]
    omega
  simp only [Arena.resolve, Arena.resolvePmaPtr, TaggedPtr.setWidth_payload, hoffset, hptr, hlen]
  have hinside : arena.base ≤ arena.base + 8 * n ∧
      arena.base + 8 * n < arena.base + 8 * arena.words := by omega
  simp [guard, hn, hinside]

end Arena.Addressable

/-! ### Allocations -/

/-- The region has this byte. -/
def Region.Covers (r : Region) (a : Nat) : Prop := r.ptr ≤ a ∧ a < r.ptr + 8 * r.words

theorem Region.covers_ptr {r : Region} (h : 0 < r.words) : r.Covers r.ptr :=
  ⟨Nat.le_refl _, by omega⟩

namespace Pma

variable {pma pma' : Pma} {words ptr : Nat} {requests : List Nat} {regions : List Region}

theorem rawAlloc_eq_some (h : pma.rawAlloc words = some (ptr, pma')) :
    words ≤ pma.freeWords ∧ ptr = pma.arena.ptrFromOffset (.ofNat 32 pma.allocOffset) ∧
      pma'.arena = pma.arena ∧ pma'.allocOffset = pma.allocOffset + words := by
  simp only [rawAlloc, Option.bind_eq_bind, Option.pure_def, Option.bind_eq_some_iff,
    Option.guard_eq_some', Option.some.injEq, Prod.mk.injEq] at h
  obtain ⟨-, hwords, rfl, rfl⟩ := h
  exact ⟨hwords, rfl, rfl, rfl⟩

theorem rawAllocs_cons_eq_some (h : pma.rawAllocs (words :: requests) = some (regions, pma')) :
    ∃ ptr pma1 rest, pma.rawAlloc words = some (ptr, pma1) ∧
      pma1.rawAllocs requests = some (rest, pma') ∧ regions = ⟨ptr, words⟩ :: rest := by
  simp only [rawAllocs, Option.bind_eq_bind, Option.pure_def, Option.bind_eq_some_iff,
    Option.some.injEq, Prod.mk.injEq] at h
  obtain ⟨⟨ptr, pma1⟩, halloc, ⟨rest, pma2⟩, hrest, rfl, rfl⟩ := h
  exact ⟨ptr, pma1, rest, halloc, hrest, rfl⟩

/-- One allocation covers the words between the old bump pointer and the new one. -/
theorem covers_of_rawAlloc (haddr : pma.arena.Addressable)
    (h : pma.rawAlloc words = some (ptr, pma')) {a : Nat} (ha : Region.Covers ⟨ptr, words⟩ a) :
    pma.arena.base + 8 * pma.allocOffset ≤ a ∧ a < pma.arena.base + 8 * pma'.allocOffset ∧
      pma'.allocOffset ≤ pma.arena.words := by
  obtain ⟨hfree, rfl, -, hoffset⟩ := rawAlloc_eq_some h
  have hle : pma.arena.ptrFromOffset (.ofNat 32 pma.allocOffset) ≤ a := ha.1
  have hlt : a < pma.arena.ptrFromOffset (.ofNat 32 pma.allocOffset) + 8 * words := ha.2
  have hwords := haddr.words_le
  rw [freeWords] at hfree
  -- A region with a byte is not empty, so the bump pointer was below the end of the arena.
  have hptr := haddr.ptrFromOffset_ofNat (n := pma.allocOffset) (by omega) (by omega)
  omega

/-- A run of allocations covers the words between the first bump pointer and the last one, each of
them once. -/
theorem stacked_of_rawAllocs (haddr : pma.arena.Addressable)
    (h : pma.rawAllocs requests = some (regions, pma')) :
    (∀ r ∈ regions, ∀ a, r.Covers a → pma.arena.base + 8 * pma.allocOffset ≤ a ∧
      a < pma.arena.base + 8 * pma.arena.words) ∧
    regions.Pairwise fun r r' => ∀ a, r.Covers a → ¬ r'.Covers a := by
  induction requests generalizing pma regions with
  | nil =>
    cases h
    exact ⟨by simp, .nil⟩
  | cons words requests ih =>
    obtain ⟨ptr, pma1, rest, halloc, hrest, rfl⟩ := rawAllocs_cons_eq_some h
    obtain ⟨-, -, harena, hoffset⟩ := rawAlloc_eq_some halloc
    obtain ⟨hinside, hapart⟩ := ih (harena ▸ haddr) hrest
    rw [harena] at hinside
    refine ⟨?_, .cons ?_ hapart⟩
    · intro r hr a ha
      rcases List.mem_cons.1 hr with rfl | hr
      · have hcovers := covers_of_rawAlloc haddr halloc ha
        omega
      · have hrest := hinside r hr a ha
        omega
    · intro r hr a ha ha'
      have hbelow := covers_of_rawAlloc haddr halloc ha
      have habove := hinside r hr a ha'
      omega

/-- Addressing is exact: the regions of every run of allocations are disjoint and inside the
arena, and the address of every word of the arena comes back from its offset, as it is and from the
tagged words of both kinds of nouns. -/
structure Exact (pma : Pma) : Prop where
  disjoint : ∀ requests regions pma', pma.rawAllocs requests = some (regions, pma') →
    regions.Pairwise fun r r' => ∀ a, r.Covers a → ¬ r'.Covers a
  inside : ∀ requests regions pma', pma.rawAllocs requests = some (regions, pma') →
    ∀ r ∈ regions, ∀ a, r.Covers a → pma.arena.base ≤ a ∧ a < pma.arena.base + 8 * pma.arena.words
  offset : ∀ ptr, ptr % 8 = 0 → pma.arena.base ≤ ptr → ptr < pma.arena.base + 8 * pma.arena.words →
      pma.arena.ptrFromOffset (pma.arena.offsetFromPtr ptr) = ptr
  tagged : ∀ ptr kind, ptr % 8 = 0 → pma.arena.base ≤ ptr →
    ptr < pma.arena.base + 8 * pma.arena.words →
      pma.arena.resolve kind (TaggedPtr.fromOffset (pma.arena.offsetFromPtr ptr) kind.tag) =
        some ptr

/-- In an arena that offsets can address nothing is lost on the way. -/
theorem exact_of_addressable (haddr : pma.arena.Addressable) : pma.Exact := by
  have hbase := haddr.base_mod
  have hwords := haddr.words_le
  -- An aligned address in the arena is that of one of its words.
  have hword : ∀ ptr, ptr % 8 = 0 → pma.arena.base ≤ ptr →
      ptr < pma.arena.base + 8 * pma.arena.words →
        ∃ n < pma.arena.words, ptr = pma.arena.base + 8 * n := fun ptr hmod hle hlt =>
    ⟨(ptr - pma.arena.base) / 8, by omega, by omega⟩
  refine ⟨?_, ?_, ?_, ?_⟩
  · intro requests regions pma' h
    exact (stacked_of_rawAllocs haddr h).2
  · intro requests regions pma' h r hr a ha
    have hcovers := (stacked_of_rawAllocs haddr h).1 r hr a ha
    omega
  · intro ptr hmod hle hlt
    obtain ⟨n, hn, rfl⟩ := hword ptr hmod hle hlt
    rw [haddr.offsetFromPtr_add hn, haddr.ptrFromOffset_ofNat (n := n) (by omega) (by omega)]
  · intro ptr kind hmod hle hlt
    obtain ⟨n, hn, rfl⟩ := hword ptr hmod hle hlt
    rw [haddr.offsetFromPtr_add hn, haddr.resolve_fromOffset hn]

/-- After a multiple of `2 ^ 32` words, the next allocation is placed on the first word again. -/
theorem rawAllocs_wrap {n : Nat} (hn : n % 2 ^ 32 = 0) (hoffset : pma.allocOffset = 0)
    (hbase : pma.arena.base < 2 ^ 64) (hwords : n < pma.arena.words) :
    pma.rawAllocs [n, 1] = some ([⟨pma.arena.base, n⟩, ⟨pma.arena.base, 1⟩],
      { pma with allocOffset := n + 1 }) := by
  have hptr : ∀ m, m % 2 ^ 32 = 0 → pma.arena.ptrFromOffset (.ofNat 32 m) = pma.arena.base := by
    intro m hm
    rw [Arena.ptrFromOffset, BitVec.toNat_ofNat, hm]
    exact Nat.mod_eq_of_lt hbase
  have hfirst : pma.rawAlloc n = some (pma.arena.base, { pma with allocOffset := n }) := by
    have hfree : n ≤ pma.freeWords := by
      rw [freeWords]
      omega
    simp [rawAlloc, guard, hfree, hoffset, hptr]
  have hsecond : ({ pma with allocOffset := n } : Pma).rawAlloc 1 =
      some (pma.arena.base, { pma with allocOffset := n + 1 }) := by
    have hfree : 1 ≤ ({ pma with allocOffset := n } : Pma).freeWords := by
      show 1 ≤ pma.arena.words - n
      omega
    simp [rawAlloc, guard, hfree, hptr n hn]
  simp [rawAllocs, hfirst, hsecond]

theorem not_exact_of_lt (hoffset : pma.allocOffset = 0) (hbase : pma.arena.base < 2 ^ 64)
    (hwords : 2 ^ 32 < pma.arena.words) : ¬ pma.Exact := by
  intro hexact
  obtain ⟨n, hn⟩ : ∃ n, n = 2 ^ 32 := ⟨_, rfl⟩
  have hwrap := rawAllocs_wrap (n := n) (by omega) hoffset hbase (by omega)
  have hapart := (List.pairwise_cons.1 (hexact.disjoint _ _ _ hwrap)).1 _ (List.mem_singleton_self _)
  -- Both regions have the first byte of the arena.
  have hfirst : Region.Covers ⟨pma.arena.base, n⟩ pma.arena.base :=
    Region.covers_ptr (by show 0 < n; omega)
  exact hapart _ hfirst (Region.covers_ptr Nat.one_pos)

/-- Addressing is exact for the sizes up to `2 ^ 32` words, which is 32 GB. -/
theorem addressing_exact_iff {map : (bytes : Nat) → Option (Mapping bytes)} {sizeWords : Nat}
    (h : Pma.new map sizeWords = some pma) : pma.Exact ↔ sizeWords ≤ 2 ^ 32 := by
  obtain ⟨hoffset, hwords, -, hbase⟩ := new_eq_some h
  refine ⟨fun hexact => ?_, fun hsize => exact_of_addressable (addressable h hsize)⟩
  by_contra hlarge
  exact not_exact_of_lt hoffset (by omega) (by omega) hexact

/-- A system that maps every file at the second page, where it has room. -/
def secondPage (bytes : Nat) : Option (Mapping bytes) :=
  if h : 4096 + bytes ≤ 2 ^ 64 then some ⟨4096, rfl, h⟩ else none

/-- The size that `NOCK_STACK_SIZE_LARGE` gives the arena, 32 GB: the last one that is exact. -/
theorem addressing_exact_iff_large :
    ∃ pma, Pma.new secondPage (2 ^ 32) = some pma ∧ pma.Exact :=
  ⟨⟨⟨4096, 2 ^ 32⟩, 0⟩, rfl, (@addressing_exact_iff _ secondPage (2 ^ 32) rfl).2 le_rfl⟩

/-- The size that `NOCK_STACK_SIZE_HUGE` gives the arena, 64 GB: two allocations overlap. -/
theorem not_exact_huge : ∃ pma, Pma.new secondPage (2 ^ 33) = some pma ∧ ¬ pma.Exact := by
  refine ⟨⟨⟨4096, 2 ^ 33⟩, 0⟩, rfl, ?_⟩
  exact not_exact_of_lt rfl (by decide) (by decide)

end Pma

end Nockchain.Mem
