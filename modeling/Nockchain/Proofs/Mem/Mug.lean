import Nockchain.Mem.Mug

/-!
# `Nockchain.Proofs.Mem.Mug`: the three mugs

`mug_u32` and `slab_mug` walk the same way and store the same mugs, so they agree on
every noun, whatever mugs are stored already and however the noun is shared
(`mugU32_of_denotes`, `slabMug_of_denotes`): both compute `mugOf`.

They do not always agree with `++mug`. Where the hash folds to zero, Hoon tries the
next seed and Rust tries the same one again, and so always ends with the fallback
value. `mugs_agree_iff` says when the mugs of a noun and of all its parts are the
same, and `mugs_disagree` is an atom where they are not.
-/

set_option autoImplicit false

namespace Nockchain.Mem

open Lib List Nat

/-! ### Atoms -/

/-- The words of an indirect atom are no more than it needs. -/
def Atom.Normalized : Atom → Prop
  | .direct _ => True
  | .indirect data => data ≠ [] ∧ data.getLast? ≠ some 0

theorem width_add_mul {low high k : Nat} (hlow : low < 2 ^ k) (hhigh : high ≠ 0) :
    width (low + 2 ^ k * high) = k + width high := by
  have hle := lt_two_pow_width high
  have hge := two_pow_le_of_width hhigh
  have hpos := width_pos hhigh
  apply le_antisymm
  · rw [width_le_iff, pow_add]
    calc low + 2 ^ k * high < 2 ^ k * 1 + 2 ^ k * high := by omega
      _ = 2 ^ k * (high + 1) := by ring
      _ ≤ 2 ^ k * 2 ^ width high := mul_le_mul_left _ hle
  · have hlarge : 2 ^ (k + width high - 1) ≤ low + 2 ^ k * high := by
      rw [Nat.add_sub_assoc hpos, pow_add]
      exact (mul_le_mul_left _ hge).trans (le_add_left _ _)
    by_contra hlt
    have hsmall := width_le_iff.1 (show width (low + 2 ^ k * high) ≤ k + width high - 1 by omega)
    omega

/-- The uppermost word of an atom stands above the value of the others. -/
theorem value_append_singleton (data : List (BitVec 64)) (w : BitVec 64) :
    value (data ++ [w]) = value data + 2 ^ (64 * data.length) * w.toNat := by
  induction data with
  | nil => simp [value]
  | cons v data ih =>
    have hcons : ∀ l, value (v :: l) = v.toNat + 2 ^ 64 * value l := fun _ => rfl
    rw [cons_append, hcons, hcons, ih, length_cons, mul_succ]
    ring

theorem value_lt (data : List (BitVec 64)) : value data < 2 ^ (64 * data.length) := by
  induction data with
  | nil => simp [value]
  | cons v data ih =>
    have hcons : value (v :: data) = v.toNat + 2 ^ 64 * value data := rfl
    rw [length_cons, mul_succ, pow_add]
    calc v.toNat + 2 ^ 64 * value data < 2 ^ 64 * (value data + 1) := by omega
      _ ≤ 2 ^ 64 * 2 ^ (64 * data.length) := mul_le_mul_left _ ih
      _ = 2 ^ (64 * data.length) * 2 ^ 64 := by ring

theorem sub_leadingZeros (w : BitVec 64) : 64 - leadingZeros w = width w.toNat := by
  have hle : width w.toNat ≤ 64 := width_le_iff.2 w.isLt
  rw [leadingZeros]
  omega

/-- `met3_usize` counts the bytes of the value. -/
theorem met3Usize_eq {key : Atom} (h : key.Normalized) : met3Usize key = Hoon.met 3 key.value := by
  cases key with
  | direct data =>
    have hdata : (data.setWidth 64).toNat = data.toNat := by
      rw [BitVec.toNat_setWidth]
      omega
    simp only [met3Usize, sub_leadingZeros, hdata, Hoon.met, Atom.value, shiftRight_eq_div_pow]
    rfl
  | indirect data =>
    obtain ⟨low, w, rfl⟩ : ∃ low w, data = low ++ [w] :=
      ⟨_, _, (dropLast_concat_getLast h.1).symm⟩
    have hw : w.toNat ≠ 0 := by
      have hlast := h.2
      simp only [getLast?_append, getLast?_singleton, Option.some_or] at hlast
      intro hzero
      exact hlast (congrArg some (BitVec.eq_of_toNat_eq hzero))
    have hwidth := width_add_mul (value_lt low) hw
    simp only [met3Usize, sub_leadingZeros, Hoon.met, Atom.value, value_append_singleton, hwidth,
      length_append, length_singleton, getLastD_concat, shiftLeft_eq,
      shiftRight_eq_div_pow]
    omega

theorem bytesValue_nil : bytesValue [] = 0 := rfl

theorem bytesValue_cons (b : BitVec 8) (bytes : List (BitVec 8)) :
    bytesValue (b :: bytes) = b.toNat + 2 ^ 8 * bytesValue bytes := rfl

theorem bytesValue_append (bytes bytes' : List (BitVec 8)) :
    bytesValue (bytes ++ bytes') = bytesValue bytes + 2 ^ (8 * bytes.length) * bytesValue bytes' := by
  induction bytes with
  | nil => simp [bytesValue]
  | cons b bytes ih =>
    rw [cons_append, bytesValue_cons, bytesValue_cons, ih, length_cons, mul_succ]
    ring

theorem length_wordBytes (w : BitVec 64) : (wordBytes w).length = 8 := by
  simp [wordBytes]

theorem bytesValue_wordBytes (w : BitVec 64) : bytesValue (wordBytes w) = w.toNat := by
  have hrange : range 8 = [0, 1, 2, 3, 4, 5, 6, 7] := rfl
  simp only [wordBytes, hrange, map_cons, map_nil, bytesValue_cons, BitVec.toNat_ofNat,
    shiftRight_eq_div_pow, bytesValue_nil]
  omega

theorem length_flatMap_wordBytes (data : List (BitVec 64)) :
    (data.flatMap wordBytes).length = 8 * data.length := by
  induction data with
  | nil => rfl
  | cons w data ih =>
    rw [flatMap_cons, length_append, ih, length_wordBytes, length_cons]
    ring

theorem bytesValue_flatMap_wordBytes (data : List (BitVec 64)) :
    bytesValue (data.flatMap wordBytes) = value data := by
  induction data with
  | nil => rfl
  | cons w data ih =>
    rw [flatMap_cons, bytesValue_append, ih, bytesValue_wordBytes]
    rfl

theorem bytesValue_asNeBytes (key : Atom) : bytesValue (asNeBytes key) = key.value := by
  cases key with
  | direct data =>
    rw [asNeBytes, bytesValue_wordBytes, BitVec.toNat_setWidth, Atom.value]
    omega
  | indirect data => exact bytesValue_flatMap_wordBytes data

theorem met3Usize_le (key : Atom) (h : key.Normalized) : met3Usize key ≤ (asNeBytes key).length := by
  cases key with
  | direct data =>
    have hle := width_le_iff.2 (data.setWidth 64).isLt
    rw [met3Usize, asNeBytes, length_wordBytes, shiftRight_eq_div_pow]
    omega
  | indirect data =>
    have hle := width_le_iff.2 (data.getLastD 0).isLt
    have hpos := length_pos_iff.2 h.1
    rw [met3Usize, asNeBytes, length_flatMap_wordBytes, shiftLeft_eq,
      shiftRight_eq_div_pow]
    omega

/-- The bytes above the size of an atom are zeros. -/
theorem bytesValue_take {bytes : List (BitVec 8)} {len : Nat} (hlen : len ≤ bytes.length)
    (hlt : bytesValue bytes < 2 ^ (8 * len)) : bytesValue (bytes.take len) = bytesValue bytes := by
  have happend := bytesValue_append (bytes.take len) (bytes.drop len)
  rw [take_append_drop, length_take, min_eq_left hlen] at happend
  have hzero : bytesValue (bytes.drop len) = 0 := by
    by_contra hne
    have hmul : 2 ^ (8 * len) * 1 ≤ 2 ^ (8 * len) * bytesValue (bytes.drop len) :=
      mul_le_mul_left _ (one_le_iff_ne_zero.2 hne)
    omega
  rw [happend, hzero]
  simp

/-- `muk_u32` hashes the value, as long as it is. -/
theorem mukU32_eq {key : Atom} (h : key.Normalized) (syd : Nat) :
    mukU32 syd (met3Usize key) key = Hoon.muk syd (Hoon.met 3 key.value) key.value := by
  have hle := met3Usize_le key h
  have hlt : bytesValue (asNeBytes key) < 2 ^ (8 * met3Usize key) := by
    rw [bytesValue_asNeBytes, met3Usize_eq h, ← width_le_iff, Hoon.met]
    omega
  rw [mukU32, murmur3, bytesValue_take hle hlt, length_take, min_eq_left hle,
    bytesValue_asNeBytes, met3Usize_eq h]

/-! ### Atoms from bytes -/

theorem bytesValue_lt (bytes : List (BitVec 8)) : bytesValue bytes < 2 ^ (8 * bytes.length) := by
  induction bytes with
  | nil => simp [bytesValue]
  | cons b bytes ih =>
    rw [bytesValue_cons, length_cons, mul_succ, pow_add]
    omega

theorem value_byteBuffer {n : Nat} {bytes : List (BitVec 8)} (h : bytes.length ≤ 8 * n) :
    value (byteBuffer bytes n) = bytesValue bytes := by
  induction n generalizing bytes with
  | zero =>
    rw [length_eq_zero_iff.1 (le_zero.1 h)]
    rfl
  | succ n ih =>
    show (BitVec.ofNat 64 (bytesValue (bytes.take 8))).toNat + 2 ^ 64 * value (byteBuffer _ n) = _
    have hlt : bytesValue (bytes.take 8) < 2 ^ 64 :=
      (bytesValue_lt _).trans_le (Nat.pow_le_pow_right two_pos (by rw [length_take]; omega))
    rw [ih (by rw [length_drop]; omega), BitVec.toNat_ofNat, mod_eq_of_lt hlt]
    by_cases hlen : 8 ≤ bytes.length
    · conv_rhs => rw [← take_append_drop 8 bytes, bytesValue_append, length_take, min_eq_left hlen]
    · rw [take_of_length_le (by omega), drop_of_length_le (by omega)]
      rfl

/-- The loop stops at the uppermost word that is not zero, or at the lowest word. -/
theorem normalizeLoop_cons (w : BitVec 64) (low : List (BitVec 64)) :
    ∃ v low', normalizeLoop (w :: low) = v :: low' ∧ (low' = [] ∨ v ≠ 0) ∧
      value (v :: low').reverse = value (w :: low).reverse := by
  induction low generalizing w with
  | nil => exact ⟨w, [], rfl, .inl rfl, rfl⟩
  | cons x low ih =>
    by_cases hw : w = 0
    · obtain ⟨v, low', hloop, htop, hvalue⟩ := ih x
      refine ⟨v, low', ?_, htop, ?_⟩
      · rw [normalizeLoop, if_neg (not_not.2 hw), hloop]
      · rw [reverse_cons (a := w), value_append_singleton, hvalue, hw]
        rfl
    · exact ⟨w, x :: low, if_pos hw, .inr hw, rfl⟩

theorem exists_normalizeStack {data : List (BitVec 64)} (h : data ≠ []) :
    ∃ low w, normalizeStack data = some (low ++ [w]) ∧ (low = [] ∨ w ≠ 0) ∧
      value (low ++ [w]) = value data := by
  obtain ⟨w, low, hdata⟩ := exists_cons_of_ne_nil (reverse_ne_nil_iff.2 h)
  obtain ⟨v, low', hloop, htop, hvalue⟩ := normalizeLoop_cons w low
  rw [← hdata, reverse_reverse, reverse_cons] at hvalue
  refine ⟨low'.reverse, v, ?_, htop.imp_left (congrArg _), hvalue⟩
  rw [normalizeStack, if_neg h, hdata, hloop, reverse_cons]

/-- An atom of a value, in its one form. -/
structure Atom.Canonical (n : Nat) (a : Atom) : Prop where
  value : a.value = n
  direct : (∃ data, a = .direct data) ↔ n ≤ 2 ^ 63 - 1
  normalized : a.Normalized

/-- Normalising drops the zero words at the end, and makes the atom direct if one word is left. -/
theorem canonical_normalizeAsAtomStack {data : List (BitVec 64)} (h : data ≠ []) :
    ∃ a, normalizeAsAtomStack data = some a ∧ a.Canonical (value data) := by
  obtain ⟨low, w, hstack, htop, hvalue⟩ := exists_normalizeStack h
  rw [normalizeAsAtomStack, hstack, ← hvalue]
  have hnormal : w ≠ 0 → Atom.Normalized (.indirect (low ++ [w])) := fun hw => by
    simpa [Atom.Normalized] using hw
  cases low with
  | nil =>
    have hw : value [w] = w.toNat := add_zero _
    by_cases hmax : w.toNat ≤ 2 ^ 63 - 1
    · refine ⟨_, congrArg some (if_pos hmax), ?_, iff_of_true ⟨_, rfl⟩ (hw ▸ hmax), trivial⟩
      exact (BitVec.toNat_setWidth ..).trans ((mod_eq_of_lt (by omega)).trans hw.symm)
    · refine ⟨_, congrArg some (if_neg hmax), rfl, iff_of_false nofun (hw ▸ hmax), hnormal ?_⟩
      rintro rfl
      exact hmax (zero_le _)
  | cons v low =>
    -- the word on top counts for more than a direct atom holds
    have hw : w ≠ 0 := htop.resolve_left (cons_ne_nil v low)
    have hpow : 2 ^ 64 * 1 ≤ 2 ^ (64 * (v :: low).length) * w.toNat :=
      Nat.mul_le_mul (Nat.pow_le_pow_right two_pos (Nat.le_mul_of_pos_right 64 (Nat.succ_pos _)))
        (pos_of_ne_zero fun h => hw (BitVec.eq_of_toNat_eq h))
    have hsum := value_append_singleton (v :: low) w
    refine ⟨.indirect (v :: low ++ [w]), ?_, rfl, iff_of_false nofun (by omega), hnormal hw⟩
    cases low <;> rfl

/-- Bytes make the atom of their value, in its one form, exactly if there are bytes at all. -/
theorem fromBytes_canonical_iff (bytes : List (BitVec 8)) :
    (∃ a, fromBytes bytes = some a ∧ a.Canonical (bytesValue bytes)) ↔ bytes ≠ [] := by
  constructor
  · rintro ⟨a, ha, -⟩ rfl
    cases ha
  · intro hne
    have hpos := length_pos_iff.2 hne
    obtain ⟨n, hn⟩ : ∃ n, (bytes.length + 7) >>> 3 = n + 1 :=
      exists_eq_succ_of_ne_zero (by rw [shiftRight_eq_div_pow]; omega)
    have hle : bytes.length ≤ 8 * (n + 1) := by
      rw [← hn, shiftRight_eq_div_pow]
      omega
    have hbuffer : byteBuffer bytes (n + 1) ≠ [] := cons_ne_nil _ _
    obtain ⟨low, w, hstack, -, hvalue⟩ := exists_normalizeStack hbuffer
    rw [fromBytes, hn, hstack, ← value_byteBuffer hle, ← hvalue]
    exact canonical_normalizeAsAtomStack (concat_ne_nil _ _)

/-- No bytes. -/
theorem fromBytes_nil : fromBytes [] = none := rfl

/-! ### The mug of a noun -/

/-- The hash of an atom that is folded to 31 bits, with the first seed. -/
def firstHam (syd key : Nat) : Nat := Hoon.ham (Hoon.muk syd (Hoon.met 3 key) key)

/-- What `mum_u32` computes: all its tries are the same. -/
def mum (syd fal key : Nat) : Nat := if firstHam syd key = 0 then fal else firstHam syd key

theorem mumU32_eq {key : Atom} (h : key.Normalized) (syd fal : Nat) :
    mumU32 syd fal key = mum syd fal key.value := by
  have hstep : ∀ tries, mumLoop syd fal key (tries + 1) =
      if firstHam syd key.value = 0 then mumLoop syd fal key tries else firstHam syd key.value := by
    intro tries
    rw [mumLoop, mukU32_eq h]
    rfl
  have hloop : ∀ tries, mumLoop syd fal key (tries + 1) = mum syd fal key.value := by
    intro tries
    induction tries with
    | zero => exact hstep 0
    | succ tries ih =>
      rw [hstep, ih, mum]
      by_cases hzero : firstHam syd key.value = 0 <;> simp [hzero]
  exact hloop 7

theorem fmix32_lt (h : Nat) : Hoon.fmix32 h < 2 ^ 32 := by
  have hlt : ∀ h, Hoon.sit h < 2 ^ 32 := fun h => mod_lt _ (by decide)
  have hshift : ∀ h n, Hoon.sit h >>> n < 2 ^ 32 := fun h n =>
    (shiftRight_le _ _).trans_lt (hlt h)
  exact xor_lt_two_pow (hlt _) (hshift _ _)

theorem firstHam_lt (syd key : Nat) : firstHam syd key < 2 ^ 31 := by
  have hlt := fmix32_lt
  refine xor_lt_two_pow ?_ (mod_lt _ (by decide))
  rw [shiftRight_eq_div_pow, div_lt_iff_lt_mul (by decide)]
  exact (hlt _).trans (by decide)

theorem mum_pos {fal : Nat} (hfal : 0 < fal) (syd key : Nat) : 0 < mum syd fal key := by
  unfold mum
  split <;> omega

theorem mum_lt {fal : Nat} (hfal : fal < 2 ^ 31) (syd key : Nat) : mum syd fal key < 2 ^ 31 := by
  have hham := firstHam_lt syd key
  unfold mum
  split <;> omega

/-- The mug of a noun, as Rust computes it. -/
def mugOf : Noun → Nat
  | .atom a => mum 0xcafebabe 0x7fff a
  | .cell h t => mum 0xdeadbeef 0xfffe (mugOf h ||| mugOf t <<< 32)

theorem mugOf_pos (n : Noun) : 0 < mugOf n := by
  cases n <;> exact mum_pos (by decide) _ _

theorem mugOf_lt (n : Noun) : mugOf n < 2 ^ 31 := by
  cases n <;> exact mum_lt (by decide) _ _

theorem calcAtomMug_eq (key : Atom) (h : key.Normalized) : calcAtomMug key = mugOf (.atom key.value) :=
  mumU32_eq h _ _

theorem calcCellMug_eq (h t : Noun) : calcCellMug (mugOf h) (mugOf t) = mugOf (.cell h t) := by
  have hlt : mugOf h ||| mugOf t <<< 32 < 2 ^ 63 := by
    have hh := mugOf_lt h
    have ht := mugOf_lt t
    refine or_lt_two_pow (by omega) ?_
    omega
  have hnormalized : Atom.Normalized (.direct (.ofNat 63 (mugOf h ||| mugOf t <<< 32))) := trivial
  rw [calcCellMug, mumU32_eq hnormalized, Atom.value, BitVec.toNat_ofNat, mod_eq_of_lt hlt]
  rfl

/-! ### The loops -/

namespace Heap

variable {heap heap' : Heap} {w : Word} {n : Noun} {fuel : Nat} {stack : List Word}

/-- Every mug that is stored is that of the noun. -/
def Cached (heap : Heap) : Prop :=
  ∀ kind form ptr n m, heap.Denotes (.allocated kind form ptr) n →
    heap.getCachedMug ptr = some m → m = mugOf n

/-- The two loops make the same turns. -/
theorem slabTurn_eq (heap : Heap) (noun : Word) (stack : List Word) :
    heap.slabTurn noun stack = heap.mugTurn noun stack := by
  cases noun with
  | direct data => rfl
  | allocated kind form ptr =>
    cases hcached : heap.getCachedMug ptr <;> simp [slabTurn, mugTurn, getMug, hcached]

theorem slabLoop_eq (fuel : Nat) (heap : Heap) (stack : List Word) :
    slabLoop fuel heap stack = mugLoop fuel heap stack := by
  induction fuel generalizing heap stack with
  | zero => rfl
  | succ fuel ih =>
    cases stack with
    | nil => rfl
    | cons noun stack => simp [slabLoop, mugLoop, slabTurn_eq, ih]

/-- A heap with the same data and more mugs, all of them right. -/
structure Extends (heap heap' : Heap) : Prop where
  object : heap'.object = heap.object
  getMug : ∀ w m, heap.getMug w = some m → heap'.getMug w = some m
  cached : heap'.Cached

theorem Extends.trans {heap'' : Heap} (h : heap.Extends heap') (h' : heap'.Extends heap'') :
    heap.Extends heap'' where
  object := h'.object.trans h.object
  getMug := fun w m hm => h'.getMug w m (h.getMug w m hm)
  cached := h'.cached

variable {m ptr : Nat}

theorem getMug_of_cached (hcached : heap.Cached) (hw : heap.Denotes w n)
    (hm : heap.getMug w = some m) : m = mugOf n := by
  cases hw with
  | direct data =>
    have hdata : calcAtomMug (.direct data) = m := Option.some.inj hm
    rw [← hdata]
    exact calcAtomMug_eq (.direct data) trivial
  | indirect form hobject hlast hlarge =>
    exact hcached _ _ _ _ _ (.indirect form hobject hlast hlarge) hm
  | cell form hobject hhead htail => exact hcached _ _ _ _ _ (.cell form hobject hhead htail) hm

/-- To store the right mug of an object that has none. -/
theorem extends_setMug (hcached : heap.Cached) {kind : Kind} {form : Form}
    (hw : heap.Denotes (.allocated kind form ptr) n) (hnone : heap.getCachedMug ptr = none) :
    heap.Extends (heap.setMug ptr (mugOf n)) where
  object := rfl
  getMug := by
    intro w m hm
    cases w with
    | direct data => exact hm
    | allocated kind' form' ptr' =>
      have hne : ptr' ≠ ptr := by
        rintro rfl
        cases hnone.symm.trans hm
      exact (getCachedMug_setMug_of_ne hne).trans hm
  cached := by
    intro kind' form' ptr' n' m hn' hm
    have hn'' : heap.Denotes (.allocated kind' form' ptr') n' := hn'.of_object_eq rfl
    by_cases hptr : ptr' = ptr
    · subst hptr
      rw [getCachedMug_setMug_self (mugOf_pos n) (mugOf_lt n)] at hm
      rw [← Option.some.inj hm, hn''.unique_of_ptr hw]
    · rw [getCachedMug_setMug_of_ne hptr] at hm
      exact hcached _ _ _ _ _ hn'' hm

theorem mugLoop_cons {noun : Word} {stack' : List Word}
    (h : heap.mugTurn noun stack = some (heap', stack')) (fuel : Nat) :
    mugLoop (fuel + 1) heap (noun :: stack) = mugLoop fuel heap' stack' := by
  simp [mugLoop, h]

/-- The loop gets to the mug of the noun on top of the stack, and goes on below it. -/
def Settles (heap : Heap) (w : Word) (n : Noun) (stack : List Word) : Prop :=
  ∃ turns heap', heap.Extends heap' ∧ heap'.getMug w = some (mugOf n) ∧
    ∀ fuel, mugLoop (fuel + turns) heap (w :: stack) = mugLoop fuel heap' stack

theorem settles_of_getMug (hcached : heap.Cached) (hw : heap.Denotes w n)
    (hm : heap.getMug w = some m) (stack : List Word) : heap.Settles w n stack := by
  have hextends : heap.Extends heap := ⟨rfl, fun _ _ h => h, hcached⟩
  refine ⟨1, heap, hextends, hm.trans (congrArg some (getMug_of_cached hcached hw hm)), ?_⟩
  apply mugLoop_cons
  cases w with
  | direct data => rfl
  | allocated kind form ptr =>
    have hm : heap.getCachedMug ptr = some m := hm
    simp [mugTurn, hm]

/-- A turn that stores the mug, unless it is stored already. -/
theorem settles_of_setMug (hcached : heap.Cached) {kind : Kind} {form : Form}
    (hw : heap.Denotes (.allocated kind form ptr) n)
    (hturn : heap.getCachedMug ptr = none → heap.mugTurn (.allocated kind form ptr) stack =
      some (heap.setMug ptr (mugOf n), stack)) :
    heap.Settles (.allocated kind form ptr) n stack := by
  cases hptr : heap.getCachedMug ptr with
  | some m => exact settles_of_getMug hcached hw hptr stack
  | none =>
    exact ⟨1, heap.setMug ptr (mugOf n), extends_setMug hcached hw hptr,
      getCachedMug_setMug_self (mugOf_pos n) (mugOf_lt n), mugLoop_cons (hturn hptr)⟩

/-- A cell whose head and tail have their mugs. -/
theorem settles_cell (hcached : heap.Cached) (form : Form) {head tail : Word}
    {h t : Noun} (hobject : heap.object ptr = some (.cell head tail)) (hhead : heap.Denotes head h)
    (htail : heap.Denotes tail t) {headMug tailMug : Nat} (hh : heap.getMug head = some headMug)
    (ht : heap.getMug tail = some tailMug) (stack : List Word) :
    heap.Settles (.allocated .cell form ptr) (.cell h t) stack := by
  have hw : heap.Denotes (.allocated .cell form ptr) (.cell h t) := .cell form hobject hhead htail
  refine settles_of_setMug hcached hw fun hptr => ?_
  obtain rfl := getMug_of_cached hcached hhead hh
  obtain rfl := getMug_of_cached hcached htail ht
  simp [mugTurn, hptr, hobject, hh, ht, calcCellMug_eq]

/-- The loop comes back to a cell when both halves have their mugs. -/
theorem settles_of_denotes (hw : heap.Denotes w n) (hcached : heap.Cached) (stack : List Word) :
    heap.Settles w n stack := by
  -- By induction on the noun: the heap that the head leaves is that on which the tail begins.
  induction n generalizing heap w stack with
  | atom a =>
    cases hw with
    | direct data => exact settles_of_getMug hcached (.direct data) rfl stack
    | @indirect form ptr data hobject hlast hlarge =>
      have hw : heap.Denotes (.allocated .indirect form ptr) _ :=
        .indirect form hobject hlast hlarge
      have hnormalized : Atom.Normalized (.indirect data) := by
        refine ⟨?_, hlast⟩
        rintro rfl
        simp [value] at hlarge
      refine settles_of_setMug hcached hw fun hptr => ?_
      simp [mugTurn, hptr, hobject, calcAtomMug_eq _ hnormalized, Atom.value]
  | cell h t ihh iht =>
    cases hw with
    | @cell form ptr head tail _ _ hobject hhead htail =>
      have hw : heap.Denotes (.allocated .cell form ptr) (.cell h t) :=
        .cell form hobject hhead htail
      by_cases hready : (∃ m, heap.getMug head = some m) ∧ ∃ m, heap.getMug tail = some m
      · obtain ⟨⟨headMug, hh⟩, tailMug, ht⟩ := hready
        exact settles_cell hcached form hobject hhead htail hh ht stack
      cases hptr : heap.getCachedMug ptr with
      | some m => exact settles_of_getMug hcached hw hptr stack
      | none =>
        have hturn : heap.mugTurn (.allocated .cell form ptr) stack =
            some (heap, head :: tail :: .allocated .cell form ptr :: stack) := by
          simp only [mugTurn, hptr, hobject]
          split
          case h_1 headMug tailMug hh ht => exact absurd ⟨⟨_, hh⟩, _, ht⟩ hready
          case h_2 => rfl
        obtain ⟨k1, heap1, hext1, hh, hrun1⟩ :=
          ihh hhead hcached (tail :: .allocated .cell form ptr :: stack)
        have htail1 := htail.of_object_eq hext1.object
        obtain ⟨k2, heap2, hext2, ht, hrun2⟩ :=
          iht htail1 hext1.cached (.allocated .cell form ptr :: stack)
        have hext := hext1.trans hext2
        obtain ⟨k3, heap3, hext3, hm, hrun3⟩ := settles_cell hext.cached form
          (by rw [hext.object, hobject]) (hhead.of_object_eq hext.object)
          (htail.of_object_eq hext.object) (hext2.getMug _ _ hh) ht stack
        refine ⟨k3 + k2 + k1 + 1, heap3, hext.trans hext3, hm, fun fuel => ?_⟩
        rw [← add_assoc, ← add_assoc, ← add_assoc]
        calc mugLoop (fuel + k3 + k2 + k1 + 1) heap (.allocated .cell form ptr :: stack)
            = mugLoop (fuel + k3 + k2 + k1) heap _ := mugLoop_cons hturn _
          _ = mugLoop (fuel + k3 + k2) heap1 _ := hrun1 _
          _ = mugLoop (fuel + k3) heap2 _ := hrun2 _
          _ = mugLoop fuel heap3 stack := hrun3 _

/-- With enough fuel, the function returns this mug. -/
def Returns (f : Nat → Heap → Word → Option (Heap × Nat)) (heap : Heap) (w : Word) (m : Nat) :
    Prop :=
  ∃ bound, ∀ fuel, bound ≤ fuel → ∃ heap', f fuel heap w = some (heap', m)

theorem Returns.unique {f : Nat → Heap → Word → Option (Heap × Nat)} {m' : Nat}
    (h : Returns f heap w m) (h' : Returns f heap w m') : m = m' := by
  obtain ⟨bound, h⟩ := h
  obtain ⟨bound', h'⟩ := h'
  obtain ⟨_, heq⟩ := h (max bound bound') (le_max_left _ _)
  obtain ⟨_, heq'⟩ := h' (max bound bound') (le_max_right _ _)
  cases heq.symm.trans heq'
  rfl

section

variable (hw : heap.Denotes w n) (hcached : heap.Cached)

include hw hcached

/-- The loop that begins with one noun ends, and leaves it with its mug. -/
theorem mugLoop_of_denotes : ∃ bound heap', heap'.getMug w = some (mugOf n) ∧
      ∀ fuel, bound ≤ fuel → mugLoop fuel heap [w] = some heap' := by
  obtain ⟨turns, heap', -, hm, hrun⟩ := settles_of_denotes hw hcached []
  refine ⟨turns + 1, heap', hm, fun fuel hfuel => ?_⟩
  obtain ⟨rest, rfl⟩ : ∃ rest, fuel = rest + 1 + turns := ⟨fuel - 1 - turns, by omega⟩
  rw [hrun]
  rfl

theorem mugU32_of_denotes : Returns mugU32 heap w (mugOf n) := by
  obtain ⟨bound, heap', hm, hloop⟩ := mugLoop_of_denotes hw hcached
  refine ⟨bound, fun fuel hfuel => ?_⟩
  cases hfirst : heap.getMug w with
  | some m =>
    obtain rfl := getMug_of_cached hcached hw hfirst
    exact ⟨heap, by simp [mugU32, hfirst]⟩
  | none => exact ⟨heap', by simp [mugU32, hfirst, hloop fuel hfuel, hm]⟩

theorem slabMug_of_denotes : Returns slabMug heap w (mugOf n) := by
  obtain ⟨bound, heap', hm, hloop⟩ := mugLoop_of_denotes hw hcached
  refine ⟨bound, fun fuel hfuel => ⟨heap', ?_⟩⟩
  simp [slabMug, slabLoop_eq, hloop fuel hfuel, hm]

end

end Heap

/-! ### Agreement with `++mug` -/

/-- The first of the eight seeds whose hash does not fold to zero is the first one, or its hash is
the fallback value; or there is none. -/
def KeySettled (syd fal key : Nat) : Prop :=
  firstHam syd key ≠ 0 ∨ ∀ i < 8, firstHam (syd + i) key ≠ 0 →
    (∀ j < i, firstHam (syd + j) key = 0) → firstHam (syd + i) key = fal

/-- `++mum` ends with its fallback if all hashes are zero, or if the first other one happens to be
it. -/
theorem hoonMumLoop_eq_fal {fal key tries syd : Nat} :
    Hoon.mumLoop fal key tries syd = fal ↔ ∀ i < tries, firstHam (syd + i) key ≠ 0 →
      (∀ j < i, firstHam (syd + j) key = 0) → firstHam (syd + i) key = fal := by
  induction tries generalizing syd with
  | zero => simp [Hoon.mumLoop]
  | succ tries ih =>
    have hstep : Hoon.mumLoop fal key (tries + 1) syd = if firstHam syd key = 0
      then Hoon.mumLoop fal key tries (syd + 1) else firstHam syd key := rfl
    rw [hstep]
    by_cases hzero : firstHam syd key = 0
    · rw [if_pos hzero, ih]
      have hsucc : ∀ i, syd + 1 + i = syd + (i + 1) := fun i => by omega
      simp only [hsucc]
      constructor
      · intro hall i hi hne hbefore
        cases i with
        | zero => exact absurd hzero hne
        | succ i =>
          exact hall i (by omega) hne fun j hj => hbefore (j + 1) (by omega)
      · intro hall i hi hne hbefore
        refine hall (i + 1) (by omega) hne fun j hj => ?_
        cases j with
        | zero => exact hzero
        | succ j => exact hbefore j (by omega)
    · rw [if_neg hzero]
      constructor
      · intro hfal i hi hi0 hbefore
        cases i with
        | zero => exact hfal
        | succ i => exact absurd (hbefore 0 (by omega)) hzero
      · intro hall
        exact hall 0 (by omega) hzero (by omega)

theorem hoonMum_eq_iff {syd fal key : Nat} :
    mum syd fal key = Hoon.mum syd fal key ↔ KeySettled syd fal key := by
  have hstep : Hoon.mum syd fal key = if firstHam syd key = 0
    then Hoon.mumLoop fal key 7 (syd + 1) else firstHam syd key := rfl
  by_cases hzero : firstHam syd key = 0
  · rw [mum, if_pos hzero, KeySettled, ← hoonMumLoop_eq_fal, eq_comm]
    exact ⟨.inr, fun h => h.resolve_left (by simpa using hzero)⟩
  · rw [mum, hstep, if_neg hzero, if_neg hzero]
    exact ⟨fun _ => .inl hzero, fun _ => rfl⟩

/-- At the noun and at all its parts, the hash settles with the first seed. -/
def Settled : Noun → Prop
  | .atom a => KeySettled 0xcafebabe 0x7fff a
  | .cell h t => Settled h ∧ Settled t ∧ KeySettled 0xdeadbeef 0xfffe (mugOf h ||| mugOf t <<< 32)

/-- Two mugs side by side. -/
theorem cat_mugOf (h t : Noun) : Hoon.cat 5 (mugOf h) (mugOf t) = mugOf h ||| mugOf t <<< 32 := by
  have hpos := mugOf_pos h
  have hlt := mugOf_lt h
  have hmet : Hoon.met 5 (mugOf h) = 1 := by
    have hwidth := width_pos (pos_iff_ne_zero.1 hpos)
    have hle : width (mugOf h) ≤ 31 := width_le_iff.2 hlt
    rw [Hoon.met]
    omega
  rw [Hoon.cat, hmet, Nat.or_comm]
  exact shiftLeft_add_eq_or_of_lt (by omega) _

theorem mugOf_eq_hoonMug {n : Noun} (h : Settled n) : mugOf n = Hoon.mug n := by
  induction n with
  | atom a => exact hoonMum_eq_iff.2 h
  | cell h t ihh iht =>
    obtain ⟨hh, ht, hkey⟩ := h
    rw [Hoon.mug, ← ihh hh, ← iht ht, cat_mugOf]
    exact hoonMum_eq_iff.2 hkey

namespace Heap

variable {heap : Heap} {w v : Word} {n s : Noun}

/-- The parts of a noun in memory. -/
inductive Reaches (heap : Heap) : Word → Word → Prop where
  | refl (w : Word) : Reaches heap w w
  | head (form : Form) {ptr : Nat} {head tail v : Word}
      (hobject : heap.object ptr = some (.cell head tail)) (h : Reaches heap head v) :
      Reaches heap (.allocated .cell form ptr) v
  | tail (form : Form) {ptr : Nat} {head tail v : Word}
      (hobject : heap.object ptr = some (.cell head tail)) (h : Reaches heap tail v) :
      Reaches heap (.allocated .cell form ptr) v

theorem settled_of_reaches (h : heap.Reaches w v) (hw : heap.Denotes w n) (hv : heap.Denotes v s)
    (hn : Settled n) : Settled s := by
  induction h generalizing n with
  | refl w => exact hw.unique hv ▸ hn
  | head form hobject _ ih =>
    cases hw with
    | cell _ hobject' hhead htail =>
      cases hobject.symm.trans hobject'
      exact ih hhead hv hn.1
  | tail form hobject _ ih =>
    cases hw with
    | cell _ hobject' hhead htail =>
      cases hobject.symm.trans hobject'
      exact ih htail hv hn.2.1

theorem settled_of_mugOf_eq (hw : heap.Denotes w n)
    (hall : ∀ v s, heap.Reaches w v → heap.Denotes v s → mugOf s = Hoon.mug s) : Settled n := by
  induction hw with
  | direct data => exact hoonMum_eq_iff.1 (hall _ _ (.refl _) (.direct data))
  | indirect form hobject hlast hlarge =>
    exact hoonMum_eq_iff.1 (hall _ _ (.refl _) (.indirect form hobject hlast hlarge))
  | cell form hobject hhead htail ihh iht =>
    have hself := hall _ _ (.refl _) (.cell form hobject hhead htail)
    have hh := hall _ _ (.head form hobject (.refl _)) hhead
    have ht := hall _ _ (.tail form hobject (.refl _)) htail
    rw [Hoon.mug, ← hh, ← ht, cat_mugOf] at hself
    exact ⟨ihh fun v s hv => hall v s (.head form hobject hv),
      iht fun v s hv => hall v s (.tail form hobject hv), hoonMum_eq_iff.1 hself⟩

/-- The three mugs of a noun and of all its parts agree exactly where the hash settles with the
first seed. -/
theorem mugs_agree_iff (hw : heap.Denotes w n) (hcached : heap.Cached) :
    (∀ v s, heap.Reaches w v → heap.Denotes v s →
      Returns mugU32 heap v (Hoon.mug s) ∧ Returns slabMug heap v (Hoon.mug s)) ↔ Settled n := by
  constructor
  · intro hall
    refine settled_of_mugOf_eq hw fun v s hreach hv => ?_
    exact (mugU32_of_denotes hv hcached).unique (hall v s hreach hv).1
  · intro hn v s hreach hv
    rw [← mugOf_eq_hoonMug (settled_of_reaches hreach hw hv hn)]
    exact ⟨mugU32_of_denotes hv hcached, slabMug_of_denotes hv hcached⟩

/-- The cell `[1 2]`, without a mug. -/
def pairHeap : Heap :=
  ⟨fun ptr => if ptr = 8 then some (.cell (.direct 1) (.direct 2)) else none, fun _ => 0⟩

theorem cached_pairHeap : pairHeap.Cached := by
  intro kind form ptr n m _ hm
  simp [getCachedMug, pairHeap] at hm

theorem mugs_agree_iff_pair :
    Returns mugU32 pairHeap (.allocated .cell .pointer 8) (Hoon.mug (.cell (.atom 1) (.atom 2))) := by
  have hw : pairHeap.Denotes (.allocated .cell .pointer 8) (.cell (.atom 1) (.atom 2)) :=
    .cell _ rfl (.direct 1) (.direct 2)
  have hsettled : Settled (.cell (.atom 1) (.atom 2)) :=
    ⟨.inl (by decide +kernel), .inl (by decide +kernel), .inl (by decide +kernel)⟩
  exact ((mugs_agree_iff hw cached_pairHeap).2 hsettled _ _ (.refl _) hw).1

/-- The hash of this atom with the first seed is zero: both Rust functions return the fallback
value, and Hoon the hash with the next seed. -/
theorem mugs_disagree : Returns mugU32 pairHeap (.direct 0x6ddb5cd6) 0x7fff ∧
      Returns slabMug pairHeap (.direct 0x6ddb5cd6) 0x7fff ∧
      Hoon.mug (.atom 0x6ddb5cd6) = 0x429ceea := by
  have hw : pairHeap.Denotes (.direct 0x6ddb5cd6) (.atom 0x6ddb5cd6) := .direct _
  have hmug : mugOf (.atom 0x6ddb5cd6) = 0x7fff := by decide +kernel
  exact ⟨hmug ▸ mugU32_of_denotes hw cached_pairHeap,
    hmug ▸ slabMug_of_denotes hw cached_pairHeap,
    by decide +kernel⟩

end Heap

end Nockchain.Mem
