import Nockchain.Math.Schnorr

/-!
# `Nockchain.Proofs.Math.Schnorr`: signatures verify

Where the points are a group in which the generator has the order `g-order` (`IsGroup`), `ch-scal`
is scalar multiplication, the nonce point that `verify` recomputes is the one that `sign` hashed
(`IsGroup.noncePoint_eq`), and so a signature in numbers always verifies (`IsGroup.verify_sign`).
In limbs it does where the numbers come back from their limbs, and they do not where a limb
below the highest one is zero (`t8ToAtom_atomToT8`).
-/

set_option autoImplicit false

namespace Nockchain.Schnorr

open Lib TxEngine Mem.Hoon List Nat

/-!
## Limbs apart and together

`rip` takes a number apart into its digits in a base that is a power of two (`rip_eq_digits`).
`rap` puts numbers together with as many blocks for each as it fills. A number that fills one block
is a digit, and zero fills none, so that digits come back without the zeros among them
(`rap_eq_ofDigits`). Nothing else is lost: numbers that fill the same blocks can be told apart
(`rap_inj`).
-/

section Limbs

variable {bloq : Nat}

/-- The blocks that a number fills. -/
theorem met_le_iff {a k : Nat} : met bloq a ≤ k ↔ a < 2 ^ (2 ^ bloq * k) := by
  have hpos : 0 < 2 ^ bloq := Nat.two_pow_pos bloq
  rw [← width_le_iff, met, ← Nat.lt_succ_iff, Nat.div_lt_iff_lt_mul hpos, Nat.succ_mul,
    mul_comm k]
  omega

theorem met_eq_zero {a : Nat} : met bloq a = 0 ↔ a = 0 := by
  rw [← le_zero, met_le_iff]
  simp

theorem met_eq_one {a : Nat} (ha : a ≠ 0) (hlt : a < 2 ^ 2 ^ bloq) : met bloq a = 1 := by
  have hle : met bloq a ≤ 1 := met_le_iff.2 (by simpa using hlt)
  have hne : met bloq a ≠ 0 := fun h => ha (met_eq_zero.1 h)
  omega

theorem cat_eq (b c : Nat) : cat bloq b c = b + 2 ^ (2 ^ bloq * met bloq b) * c := by
  rw [cat, shiftLeft_eq, mul_comm, add_comm]

theorem rap_cons (w : Nat) (l : List Nat) :
    rap bloq (w :: l) = w + 2 ^ (2 ^ bloq * met bloq w) * rap bloq l :=
  cat_eq w (rap bloq l)

theorem two_le_block (bloq : Nat) : 2 ≤ 2 ^ 2 ^ bloq :=
  Nat.le_self_pow (Nat.two_pow_pos bloq).ne' 2

/-- The digits of a number as many as its blocks. -/
theorem length_digits (a : Nat) : (digits (2 ^ 2 ^ bloq) a).length = met bloq a := by
  refine le_antisymm ?_ ?_
  · rw [digits_length_le_iff (two_le_block bloq), ← pow_mul]
    exact met_le_iff.1 le_rfl
  · rw [met_le_iff, pow_mul]
    exact (digits_length_le_iff (two_le_block bloq) _).1 le_rfl

theorem rip_eq_digits (a : Nat) : rip bloq a = digits (2 ^ 2 ^ bloq) a := by
  refine ext_getElem (by rw [length_digits, rip, length_map, length_range]) ?_
  intro i hi hi'
  have hdigit := getD_digits a i (two_le_block bloq)
  rw [getD_eq_getElem _ _ hi'] at hdigit
  simp only [rip, getElem_map, getElem_range, cut]
  rw [hdigit, shiftRight_eq_div_pow, mul_comm, pow_mul]

/-- Limbs of one block each come together without the zeros. -/
theorem rap_eq_ofDigits {l : List Nat} (hl : ∀ w ∈ l, w < 2 ^ 2 ^ bloq) :
    rap bloq l = ofDigits (2 ^ 2 ^ bloq) (l.filter (· ≠ 0)) := by
  induction l with
  | nil => rfl
  | cons w l ih =>
    rw [forall_mem_cons] at hl
    rw [rap_cons, ih hl.2]
    by_cases hw : w = 0
    · simp [hw, met_eq_zero.2]
    · rw [met_eq_one hw hl.1, filter_cons_of_pos (by simpa using hw), ofDigits_cons,
        mul_one]

/-- The limbs of a number, with zeros after them, make up the number again if and only if none of
its digits is zero. -/
theorem rap_digits_iff {a k : Nat} :
    rap bloq (digits (2 ^ 2 ^ bloq) a ++ replicate k 0) = a ↔
      0 ∉ digits (2 ^ 2 ^ bloq) a := by
  have hlt : ∀ w ∈ digits (2 ^ 2 ^ bloq) a, w < 2 ^ 2 ^ bloq :=
    fun w hw => digits_lt_base (two_le_block bloq) hw
  have hzeros : (replicate k 0).filter (· ≠ 0) = [] := by simp
  rw [rap_eq_ofDigits (fun w hw => ?_), filter_append, hzeros, append_nil]
  · constructor
    · intro heq hmem
      -- Digits without zeros are the digits of what they make up.
      have hdigits : digits (2 ^ 2 ^ bloq) a =
          (digits (2 ^ 2 ^ bloq) a).filter (· ≠ 0) := by
        conv_lhs => rw [← heq]
        refine digits_ofDigits _ (two_le_block bloq) _ ?_ ?_
        · exact fun w hw => hlt w (mem_of_mem_filter hw)
        · exact fun hne => by simpa using of_mem_filter (getLast_mem hne)
      rw [hdigits] at hmem
      simpa using of_mem_filter hmem
    · intro hmem
      have hfilter : (digits (2 ^ 2 ^ bloq) a).filter (· ≠ 0) = digits (2 ^ 2 ^ bloq) a :=
        filter_eq_self.2 fun w hw => by
          simp only [decide_eq_true_eq]
          exact fun h => hmem (h ▸ hw)
      rw [hfilter, ofDigits_digits]
  · rcases mem_append.1 hw with hw | hw
    · exact hlt w hw
    · rw [eq_of_mem_replicate hw]
      exact Nat.two_pow_pos _

/-- Numbers that fill the same blocks come together differently. -/
theorem rap_inj {l l' : List Nat} (hblocks : l.map (met bloq) = l'.map (met bloq)) :
    rap bloq l = rap bloq l' ↔ l = l' := by
  refine ⟨fun heq => ?_, fun heq => heq ▸ rfl⟩
  induction l generalizing l' with
  | nil =>
    rw [map_nil, eq_comm, map_eq_nil_iff] at hblocks
    exact hblocks.symm
  | cons w l ih =>
    cases l' with
    | nil => cases hblocks
    | cons w' l' =>
      rw [map_cons, map_cons, cons.injEq] at hblocks
      rw [rap_cons, rap_cons, ← hblocks.1] at heq
      have hw : w < 2 ^ (2 ^ bloq * met bloq w) := met_le_iff.1 le_rfl
      have hw' : w' < 2 ^ (2 ^ bloq * met bloq w) := met_le_iff.1 hblocks.1.ge
      have hlow : w = w' := by
        have hmod := congrArg (· % 2 ^ (2 ^ bloq * met bloq w)) heq
        simpa [add_mul_mod_self_left, mod_eq_of_lt hw, mod_eq_of_lt hw'] using hmod
      have hhigh : rap bloq l = rap bloq l' := by
        rw [hlow] at heq
        exact Nat.eq_of_mul_eq_mul_left (Nat.two_pow_pos _) (Nat.add_left_cancel heq)
      rw [hlow, ih hblocks.2 hhigh]

end Limbs

/-! ### The curve as a group -/

/-- The operations on points are those of a commutative group in which the generator has the order
`g-order`. The identity has several representations, every other element has one. -/
structure IsGroup [Affine] {G : Type} [AddCommGroup G] (Rep : APt → G → Prop) (g : G) : Prop where
  id : Rep aId 0
  gen : Rep aGen g
  add : ∀ p q x y, Rep p x → Rep q y → ∃ r, chAdd p q = some r ∧ Rep r (x + y)
  double : ∀ p x, Rep p x → ∃ r, chDouble p = some r ∧ Rep r (x + x)
  neg : ∀ p x, Rep p x → ∃ r, chNeg p = some r ∧ Rep r (-x)
  unique : ∀ p q x, x ≠ 0 → Rep p x → Rep q x → p = q
  order : ∀ n : Nat, n • g = 0 ↔ gOrder ∣ n

section Group

/-- The low bits of a scalar, with one more bit. -/
theorem mod_two_pow_succ_smul {G : Type} [AddCommGroup G] (n i : Nat) (x : G) :
    (n % 2 ^ (i + 1)) • x = (n % 2 ^ i) • x + if n.testBit i then 2 ^ i • x else 0 := by
  rw [mod_pow_succ, add_smul, testBit_eq_decide_div_mod_eq]
  rcases mod_two_eq_zero_or_one (n / 2 ^ i) with hbit | hbit <;> simp [hbit]

variable [Affine] {G : Type} [AddCommGroup G] {Rep : APt → G → Prop} {g : G}

/-- After `k` turns the accumulator is the multiple by the low `k` bits, the point is doubled `k`
times. -/
theorem IsGroup.exists_loop (h : IsGroup Rep g) {p : APt} {x : G} (hp : Rep p x) (n k : Nat) :
    ∃ s, (range k).foldlM (chScalStep n) (aId, p) = some s ∧ Rep s.1 ((n % 2 ^ k) • x) ∧
      Rep s.2 (2 ^ k • x) := by
  induction k with
  | zero => exact ⟨(aId, p), rfl, by simpa [mod_one] using h.id, by simpa using hp⟩
  | succ k ih =>
    obtain ⟨⟨acc, q⟩, hloop, hacc, hq⟩ := ih
    obtain ⟨q', hdouble, hq'⟩ := h.double q _ hq
    rw [← two_nsmul, ← mul_smul, mul_comm] at hq'
    have hbit : ∃ acc', (if n.testBit k then chAdd acc q else some acc) = some acc' ∧
        Rep acc' ((n % 2 ^ (k + 1)) • x) := by
      rw [mod_two_pow_succ_smul]
      cases n.testBit k with
      | true => exact h.add acc q _ _ hacc hq
      | false => exact ⟨acc, rfl, by simpa using hacc⟩
    obtain ⟨acc', hadd, hacc'⟩ := hbit
    refine ⟨(acc', q'), ?_, hacc', hq'⟩
    have hstep : chScalStep n (acc, q) k = some (acc', q') := by
      show (if n.testBit k then chAdd acc q else some acc).bind
        (fun acc => (chDouble q).bind fun q => some (acc, q)) = _
      rw [hadd, hdouble]
      rfl
    rw [range_succ, foldlM_append, hloop]
    simp [hstep]

/-- `ch-scal` is scalar multiplication. -/
theorem IsGroup.exists_chScal (h : IsGroup Rep g) {p : APt} {x : G} (hp : Rep p x) (n : Nat) :
    ∃ r, chScal n p = some r ∧ Rep r (n • x) := by
  obtain ⟨s, hloop, hacc, -⟩ := h.exists_loop hp n (width n)
  rw [mod_eq_of_lt (width_le_iff.1 le_rfl)] at hacc
  refine ⟨s.1, ?_, hacc⟩
  simp [chScal, hloop]

/-- Multiples of the generator depend on the scalar modulo the order. -/
theorem IsGroup.mod_smul (h : IsGroup Rep g) (n : Nat) : (n % gOrder) • g = n • g := by
  have hzero : (gOrder * (n / gOrder)) • g = 0 := (h.order _).2 (dvd_mul_right ..)
  conv_rhs => rw [← mod_add_div n gOrder, add_smul, hzero, add_zero]

theorem IsGroup.smul_ne_zero (h : IsGroup Rep g) {n : Nat} (hn : n ≠ 0) (hlt : n < gOrder) :
    n • g ≠ 0 := by
  intro hzero
  exact hn (eq_zero_of_dvd_of_lt ((h.order n).1 hzero) hlt)

/-- The Schnorr equation: the nonce point is the one that was hashed. -/
theorem IsGroup.noncePoint_eq (h : IsGroup Rep g) {sk nonce c : Nat} {pk scalar : APt}
    (hpk : chScal sk aGen = some pk) (hnonce : nonce ≠ 0) (hlt : nonce < gOrder)
    (hscalar : chScal nonce aGen = some scalar) :
    noncePoint pk c ((nonce + c * sk) % gOrder) = some scalar := by
  obtain ⟨pk', hpk', hrepPk⟩ := h.exists_chScal h.gen sk
  obtain ⟨scalar', hscalar', hrepScalar⟩ := h.exists_chScal h.gen nonce
  rw [hpk, Option.some.injEq] at hpk'
  rw [hscalar, Option.some.injEq] at hscalar'
  subst hpk' hscalar'
  obtain ⟨left, hleft, hrepLeft⟩ := h.exists_chScal h.gen ((nonce + c * sk) % gOrder)
  obtain ⟨right, hright, hrepRight⟩ := h.exists_chScal hrepPk c
  obtain ⟨neg, hneg, hrepNeg⟩ := h.neg right _ hrepRight
  obtain ⟨r, hadd, hrep⟩ := h.add left neg _ _ hrepLeft hrepNeg
  have hsum : ((nonce + c * sk) % gOrder) • g + -(c • sk • g) = nonce • g := by
    rw [h.mod_smul, add_smul, mul_smul, add_neg_cancel_right]
  rw [hsum] at hrep
  have hr : r = scalar := h.unique r scalar _ (h.smul_ne_zero hnonce hlt) hrep hrepScalar
  simp [noncePoint, hleft, hright, hneg, hadd, hr]

end Group

/-! ### Signing and verifying -/

theorem truncGOrder_lt (d : Digest) : truncGOrder d < gOrder := mod_lt _ (by decide)

/-- A point is not a field element, as a noun. -/
theorem toNoun_point_ne (p : APt) (f : F6lt) : toNoun p ≠ toNoun f := by
  nofun

section Sign

variable [Affine] [Varlen]

theorem sign_eq_some {l : List Nat} {m : Digest} {c z : Nat} (h : sign l m = some (c, z)) :
    ∃ pk nonce scalar hash, chScal (rep 5 l) aGen = some pk ∧ nonce ≠ 0 ∧ nonce < gOrder ∧
      chScal nonce aGen = some scalar ∧ hashVarlen (preImage scalar pk m) = some hash ∧
      c = truncGOrder hash ∧ c ≠ 0 ∧ z = (nonce + c * rep 5 l) % gOrder ∧ z ≠ 0 := by
  unfold sign at h
  simp only [bind_eq_some, Option.guard_eq_some'] at h
  obtain ⟨-, -, -, -, -, -, pk, hpk, nonceHash, -, -, hnonce, scalar, hscalar, hash, hhash, -, hc,
    -, hz, heq⟩ := h
  obtain ⟨rfl, rfl⟩ := Prod.mk.inj (Option.some.inj heq)
  exact ⟨pk, _, scalar, hash, hpk, hnonce, truncGOrder_lt nonceHash, hscalar, hhash, rfl, hc, rfl,
    hz⟩

variable {G : Type} [AddCommGroup G] {Rep : APt → G → Prop} {g : G}

theorem IsGroup.verify_sign (h : IsGroup Rep g) {l : List Nat} {m : Digest} {c z : Nat}
    (hsign : sign l m = some (c, z)) :
    ∃ pk, chScal (rep 5 l) aGen = some pk ∧ verify pk m c z = some true := by
  obtain ⟨pk, nonce, scalar, hash, hpk, hnonce, hlt, hscalar, hhash, hc, hcne, hz, hzne⟩ :=
    sign_eq_some hsign
  refine ⟨pk, hpk, ?_⟩
  have hrange : 0 < c ∧ c < gOrder ∧ 0 < z ∧ z < gOrder :=
    ⟨pos_of_ne_zero hcne, hc ▸ truncGOrder_lt hash, pos_of_ne_zero hzne,
      hz ▸ mod_lt _ (by decide)⟩
  unfold verify
  rw [if_pos hrange, hz, h.noncePoint_eq hpk hnonce hlt hscalar]
  simp [hhash, guard, toNoun_point_ne, hc]

end Sign

/-! ### Limbs of a signature -/

/-- Eight numbers are a `t8`. -/
theorem exists_t8ToList {l : List Nat} (h : l.length = 8) : ∃ t, t8ToList t = l := by
  match l, h with
  | [a, b, c, d, e, f, g, h], _ => exact ⟨⟨a, b, c, d, e, f, g, h⟩, rfl⟩

theorem t8ToList_injective : Function.Injective t8ToList := by
  intro t t' h
  cases t
  cases t'
  simpa [t8ToList] using h

theorem exists_atomToT8 {a : Nat} (h : a < 2 ^ 256) :
    ∃ t k, atomToT8 a = some t ∧ t8ToList t = digits (2 ^ 2 ^ 5) a ++ replicate k 0 := by
  have hlength : (digits (2 ^ 2 ^ 5) a).length ≤ 8 := by
    rwa [length_digits, met_le_iff]
  have hripped : ∃ k, ripCorrect 5 a = digits (2 ^ 2 ^ 5) a ++ replicate k 0 ∧
      (ripCorrect 5 a).length ≤ 8 := by
    unfold ripCorrect
    split_ifs with hzero
    · exact ⟨1, by simp [hzero], by decide⟩
    · exact ⟨0, by simp [rip_eq_digits], by rw [rip_eq_digits]; exact hlength⟩
  obtain ⟨k, hripped, hle⟩ := hripped
  obtain ⟨t, ht⟩ := exists_t8ToList
    (l := ripCorrect 5 a ++ replicate (8 - (ripCorrect 5 a).length) 0) (by simp; omega)
  refine ⟨t, k + (8 - (ripCorrect 5 a).length), ?_, ?_⟩
  · unfold atomToT8
    simp only [Option.bind_eq_bind, guard, if_pos hle, Option.pure_def, Option.bind_some, ← ht]
    rfl
  · rw [ht, hripped, append_assoc, replicate_append_replicate]

/-- A number comes back from its limbs if and only if no limb below the highest one is zero. -/
theorem t8ToAtom_atomToT8 {a : Nat} (h : a < 2 ^ 256) :
    ∃ t, atomToT8 a = some t ∧ (t8ToAtom t = a ↔ 0 ∉ digits (2 ^ 32) a) := by
  obtain ⟨t, k, ht, hlist⟩ := exists_atomToT8 h
  refine ⟨t, ht, ?_⟩
  unfold t8ToAtom
  rw [hlist]
  exact rap_digits_iff

/-- Signatures by a key verify with its public key, where the limbs of their numbers do not lose a
zero. -/
theorem beltVerify_beltSign [Affine] [Varlen] {G : Type} [AddCommGroup G] {Rep : APt → G → Prop}
    {g : G} (h : IsGroup Rep g) : (∀ a, a < 2 ^ 256 → ∃ t, atomToT8 a = some t ∧
      (t8ToAtom t = a ↔ 0 ∉ Nat.digits (2 ^ 32) a)) ∧
    ∀ sk m c z, sign (t8ToList sk) m = some (c, z) →
      0 ∉ Nat.digits (2 ^ 32) c → 0 ∉ Nat.digits (2 ^ 32) z →
      ∃ s pk, beltSign sk m = some s ∧ chScal (rep 5 (t8ToList sk)) aGen = some pk ∧
        beltVerify pk m s = some true := by
  refine ⟨fun a ha => t8ToAtom_atomToT8 ha, fun sk m c z hsign hc hz => ?_⟩
  obtain ⟨pk, hpk, hverify⟩ := h.verify_sign hsign
  have hlt : c < 2 ^ 256 ∧ z < 2 ^ 256 := by
    obtain ⟨-, -, -, hash, -, -, -, -, -, rfl, -, rfl, -⟩ := sign_eq_some hsign
    exact ⟨lt_trans (truncGOrder_lt hash) (by decide),
      lt_trans (mod_lt _ (by decide)) (by decide : gOrder < 2 ^ 256)⟩
  obtain ⟨tc, htc, hatomC⟩ := t8ToAtom_atomToT8 hlt.1
  obtain ⟨tz, htz, hatomZ⟩ := t8ToAtom_atomToT8 hlt.2
  refine ⟨⟨tc, tz⟩, pk, ?_, hpk, ?_⟩
  · simp [beltSign, hsign, htc, htz]
  · unfold beltVerify
    rwa [hatomC.2 hc, hatomZ.2 hz]

/-! ### A small group

The integers modulo the order, with their digits as coordinates. -/

/-- A residue as a point. -/
def residuePoint (k : Nat) : APt :=
  if k = 0 then aId
  else if k = 1 then aGen
  else ⟨⟨k % basePrime, k / basePrime % basePrime, k / basePrime ^ 2 % basePrime,
    k / basePrime ^ 3, 0, 0⟩, f6Zero, false⟩

/-- The residue of a point. -/
def residue (p : APt) : Nat :=
  if p.inf then 0
  else if p = aGen then 1
  else p.x.a0 + basePrime * (p.x.a1 + basePrime * (p.x.a2 + basePrime * p.x.a3))

theorem residue_residuePoint (k : Nat) : residue (residuePoint k) = k := by
  unfold residue residuePoint
  by_cases hzero : k = 0
  · simp [hzero, aId]
  by_cases hone : k = 1
  · simp [hone, aGen]
  rw [if_neg hzero, if_neg hone, if_neg Bool.false_ne_true, if_neg (by simp [aGen, f6Zero, gy])]
  have hcube : k / basePrime ^ 3 = k / basePrime / basePrime / basePrime := by
    rw [Nat.div_div_eq_div_mul, Nat.div_div_eq_div_mul, Nat.pow_succ, Nat.pow_two, Nat.mul_assoc]
  have hsquare : k / basePrime ^ 2 = k / basePrime / basePrime := by
    rw [Nat.div_div_eq_div_mul, Nat.pow_two]
  rw [hcube, hsquare, mod_add_div, mod_add_div, mod_add_div]

/-- The group of residues. -/
@[reducible] def residueAffine : Affine where
  chAdd p q := some (residuePoint ((residue p + residue q) % gOrder))
  chDouble p := some (residuePoint ((residue p + residue p) % gOrder))
  chNeg p := some (residuePoint ((gOrder - residue p) % gOrder))

attribute [local instance] residueAffine

instance : NeZero gOrder := ⟨by decide⟩

/-- Residues as points: a group in which the loop of `ch-scal` can be run. -/
theorem isGroup_residue :
    IsGroup (fun p (x : ZMod gOrder) => p = residuePoint x.val) (1 : ZMod gOrder) where
  id := by simp [residuePoint]
  gen := by
    have hone : (1 : ZMod gOrder).val = 1 := ZMod.val_one'' (by decide)
    simp [hone, residuePoint]
  add := by
    rintro p q x y rfl rfl
    refine ⟨_, rfl, ?_⟩
    rw [residue_residuePoint, residue_residuePoint, ZMod.val_add]
  double := by
    rintro p x rfl
    refine ⟨_, rfl, ?_⟩
    rw [residue_residuePoint, ZMod.val_add]
  neg := by
    rintro p x rfl
    refine ⟨_, rfl, ?_⟩
    rw [residue_residuePoint, ZMod.neg_val']
  unique := by
    rintro p q x - rfl rfl
    rfl
  order := by
    intro n
    rw [nsmul_one, ZMod.natCast_eq_zero_iff]

/-- A hash that has one value. -/
@[reducible] def constantVarlen (d : Digest) : Varlen := ⟨fun _ => d⟩

section Small

attribute [local instance] residueAffine

local instance smallVarlen : Varlen := constantVarlen ⟨5, 0, 0, 0, 0⟩

/-- Challenge and response have one limb each. -/
theorem beltVerify_beltSign_small : ∃ s pk,
    beltSign ⟨7, 0, 0, 0, 0, 0, 0, 0⟩ ⟨0, 0, 0, 0, 0⟩ = some s ∧
    chScal (rep 5 (t8ToList ⟨7, 0, 0, 0, 0, 0, 0, 0⟩)) aGen = some pk ∧
    beltVerify pk ⟨0, 0, 0, 0, 0⟩ s = some true := by
  refine (beltVerify_beltSign isGroup_residue).2 _ _ 5 40 (by decide +kernel) ?_ ?_
  · norm_num
  · norm_num

end Small

section Zero

attribute [local instance] residueAffine

local instance zeroVarlen : Varlen := constantVarlen ⟨4294967296, 1, 0, 0, 0⟩

/-- The challenge is `2 ^ 64 + 1`. Its middle limb is zero, and what `verify` puts together is
`2 ^ 32 + 1`. -/
theorem not_beltVerify_zero :
    IsGroup (fun p (x : ZMod gOrder) => p = residuePoint x.val) (1 : ZMod gOrder) ∧
    ((atomToT8 (2 ^ 64)).map t8ToAtom = some 1) ∧
    ∃ s pk, beltSign ⟨7, 0, 0, 0, 0, 0, 0, 0⟩ ⟨0, 0, 0, 0, 0⟩ = some s ∧
      chScal (rep 5 (t8ToList ⟨7, 0, 0, 0, 0, 0, 0, 0⟩)) aGen = some pk ∧
      beltVerify pk ⟨0, 0, 0, 0, 0⟩ s = some false := by
  refine ⟨isGroup_residue, by decide +kernel, ⟨⟨1, 0, 1, 0, 0, 0, 0, 0⟩, 8, 0, 8, 0, 0, 0, 0, 0⟩,
    residuePoint 7, by decide +kernel, by decide +kernel, by decide +kernel⟩

end Zero

end Nockchain.Schnorr
