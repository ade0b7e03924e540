import Nockchain.Proofs.Math.Schnorr
import Nockchain.TxEngine.V0

/-!
# `Nockchain.Proofs.Math.SchnorrJets`: the jets against the gates

On points of field elements the formulas of the two sides agree (`same_add`, `same_double`), and so
do the loops over them (`same_chScal`) and the nonce points that are recomputed from a signature
(`same_noncePoint`). What is left are three differences: the gates check the range of challenge
and response first, the jets read all keys and digests first, and the jets refuse a nonce point
with `x = 0`, which the identity has. `jets_agree_iff` says exactly which tuples and which batches
they do not show in.
-/

set_option autoImplicit false

namespace Nockchain.Schnorr

open Lib TxEngine NounSerde Mem.Hoon SchnorrPubkey List

section

/-! ### Points -/

section Based

variable {x y : F6lt} {p : APt}

theorem isBased_one : f6One.isBased := by decide

theorem isBased_id : aId.isBased := by decide

theorem isBased_gen : aGen.isBased := by decide

theorem isBased_mk {b : Bool} (hx : x.isBased) (hy : y.isBased) :
    isBased ⟨x, y, b⟩ := by
  simp [isBased, hx, hy]

theorem isBased_x (hp : p.isBased) : p.x.isBased := by
  simp only [isBased, Bool.and_eq_true] at hp
  exact hp.1

theorem isBased_y (hp : p.isBased) : p.y.isBased := by
  simp only [isBased, Bool.and_eq_true] at hp
  exact hp.2

/-- The two sides make the same point of field elements, or both fail. -/
def Same (hoon jet : Option APt) : Prop := hoon = jet ∧ ∀ p ∈ jet, p.isBased

theorem same_some (hp : p.isBased) : Same (some p) (some p) := by
  refine ⟨rfl, fun q hq => ?_⟩
  rw [Option.mem_some_iff] at hq
  exact hq ▸ hp

theorem Same.bind {hoon jet : Option APt} {f f' : APt → Option APt} (h : Same hoon jet)
    (hf : ∀ p, p.isBased → Same (f p) (f' p)) : Same (hoon.bind f) (jet.bind f') := by
  rw [h.1]
  cases jet with
  | none => exact ⟨rfl, fun p hp => by cases hp⟩
  | some p => exact hf p (h.2 p rfl)

end Based

section Points

variable [F6] {f g slope x y : F6lt} {p q r : APt} {c : Nat}

theorem hoon_add (hf : f.isBased) (hg : g.isBased) : Hoon.f6Add f g = some (F6.add f g) := by
  simp [Hoon.f6Add, guard, hf, hg]

theorem hoon_neg (hf : f.isBased) : Hoon.f6Neg f = some (F6.neg f) := by
  simp [Hoon.f6Neg, guard, hf]

theorem hoon_sub (hf : f.isBased) (hg : g.isBased) : Hoon.f6Sub f g = some (Jets.f6Sub f g) := by
  simp [Hoon.f6Sub, Jets.f6Sub, hoon_neg hg, hoon_add hf (F6.neg_based g hg)]

theorem hoon_scal (hc : based c) (hf : f.isBased) : Hoon.f6Scal c f = some (F6.scal c f) := by
  simp [Hoon.f6Scal, guard, hc, hf]

section

variable (hf : f.isBased)

include hf

theorem hoon_mul (hg : g.isBased) : Hoon.f6Mul f g = some (F6.mul f g) := by
  simp [Hoon.f6Mul, guard, hf, hg]

theorem hoon_square : Hoon.f6Square f = some (Jets.f6Square f) := by
  simp [Hoon.f6Square, Jets.f6Square, guard, hf, F6.square_eq f hf]

theorem hoon_div (hg : g.isBased) : Hoon.f6Div f g = Jets.f6Div f g := by
  simp [Hoon.f6Div, Jets.f6Div, guard, hg, hoon_mul hf (F6.inv_based g hg)]

theorem sub_based (hg : g.isBased) : (Jets.f6Sub f g).isBased :=
  F6.add_based f _ hf (F6.neg_based g hg)

theorem square_based : (Jets.f6Square f).isBased := F6.mul_based f f hf hf

theorem div_based (hg : g.isBased) (h : Jets.f6Div f g = some slope) :
    slope.isBased := by
  simp only [Jets.f6Div, guard, bind_eq_some] at h
  obtain ⟨-, -, h⟩ := h
  cases h
  exact F6.mul_based f _ hf (F6.inv_based g hg)

end

theorem same_chord (hslope : slope.isBased) (hf : f.isBased) (hx : x.isBased) (hy : y.isBased) :
    Same (Hoon.chord slope f x y) (some (Jets.chord slope f x y)) := by
  have hout := sub_based (square_based hslope) hf
  have hmul := F6.mul_based slope _ hslope (sub_based hx hout)
  have hchord : Hoon.chord slope f x y = some (Jets.chord slope f x y) := by
    simp [Hoon.chord, Jets.chord, hoon_square hslope, hoon_sub (square_based hslope) hf,
      hoon_sub hx hout, hoon_mul hslope (sub_based hx hout), hoon_sub hmul hy]
  rw [hchord]
  exact same_some (isBased_mk hout (sub_based hmul hy))

/-- A slope, and the point on the line. -/
theorem same_line (hf : f.isBased) (hg : g.isBased) {xSum : F6lt} (hsum : xSum.isBased)
    (hx : x.isBased) (hy : y.isBased) :
    Same ((Hoon.f6Div f g).bind fun slope => Hoon.chord slope xSum x y)
      ((Jets.f6Div f g).bind fun slope => some (Jets.chord slope xSum x y)) := by
  rw [hoon_div hf hg]
  cases hslope : Jets.f6Div f g with
  | none => exact ⟨rfl, fun p hp => by cases hp⟩
  | some slope => exact same_chord (div_based hf hg hslope) hsum hx hy

theorem same_double (hp : p.isBased) : Same (Hoon.chDouble p) (Jets.chDouble p) := by
  have hx := isBased_x hp
  have hy := isBased_y hp
  have h2 : based 2 := by decide
  have h3 : based 3 := by decide
  have hcube := F6.scal_based 3 _ h3 (square_based hx)
  unfold Hoon.chDouble Jets.chDouble
  split
  case isTrue => exact same_some isBased_id
  case isFalse =>
    split_ifs
    · exact same_some isBased_id
    simp only [Option.bind_eq_bind, hoon_square hx, hoon_scal h3 (square_based hx),
      hoon_add hcube isBased_one, hoon_scal h2 hy, hoon_scal h2 hx, Option.bind_some,
      Option.pure_def]
    exact same_line (F6.add_based _ _ hcube isBased_one) (F6.scal_based 2 _ h2 hy)
      (F6.scal_based 2 _ h2 hx) hx hy

theorem same_neg (hp : p.isBased) : Same (Hoon.chNeg p) (some (Jets.chNeg p)) := by
  have hy := isBased_y hp
  have hneg : Hoon.chNeg p = some (Jets.chNeg p) := by
    simp [Hoon.chNeg, Jets.chNeg, hoon_neg hy]
  rw [hneg]
  exact same_some (isBased_mk (isBased_x hp) (F6.neg_based _ hy))

/-- On field elements the two additions agree; they check for the identity in the same order. -/
theorem same_add (hp : p.isBased) (hq : q.isBased) : Same (Hoon.chAdd p q) (Jets.chAdd p q) := by
  unfold Hoon.chAdd Jets.chAdd
  split
  case isTrue => exact same_some hq
  case isFalse =>
    split
    case isTrue => exact same_some hp
    case isFalse =>
      simp only [Option.bind_eq_bind, (same_neg hq).1, Option.bind_some]
      split
      case isTrue => exact same_some isBased_id
      case isFalse =>
        split_ifs
        · exact same_double hp
        simp only [hoon_sub (isBased_y hp) (isBased_y hq),
          hoon_sub (isBased_x hp) (isBased_x hq), hoon_add (isBased_x hp) (isBased_x hq),
          Option.bind_some, Option.pure_def]
        exact same_line (sub_based (isBased_y hp) (isBased_y hq))
          (sub_based (isBased_x hp) (isBased_x hq))
          (F6.add_based _ _ (isBased_x hp) (isBased_x hq)) (isBased_x hp) (isBased_y hp)

/-- The loop of `ch-scal` goes through the same points. -/
theorem foldlM_chScalStep (n : Nat) (l : List Nat) {s : APt × APt} (hs : s.1.isBased)
    (hs' : s.2.isBased) :
    l.foldlM (@chScalStep Hoon.affine n) s = l.foldlM (@chScalStep Jets.affine n) s ∧
      ∀ t ∈ l.foldlM (@chScalStep Jets.affine n) s, t.1.isBased := by
  induction l generalizing s with
  | nil =>
    refine ⟨rfl, fun t ht => ?_⟩
    rw [foldlM_nil, Option.mem_def, Option.pure_def, Option.some.injEq] at ht
    exact ht ▸ hs
  | cons i l ih =>
    have hacc : Same (if n.testBit i then Hoon.chAdd s.1 s.2 else some s.1)
        (if n.testBit i then Jets.chAdd s.1 s.2 else some s.1) := by
      split_ifs
      · exact same_add hs hs'
      · exact same_some hs
    have hdouble := same_double hs'
    have hstep : @chScalStep Hoon.affine n s i = @chScalStep Jets.affine n s i := by
      show Option.bind (if n.testBit i then Hoon.chAdd s.1 s.2 else some s.1) _ =
        Option.bind (if n.testBit i then Jets.chAdd s.1 s.2 else some s.1) _
      rw [hacc.1]
      show (Option.bind _ fun acc => Option.bind (Hoon.chDouble s.2) _) =
        Option.bind _ fun acc => Option.bind (Jets.chDouble s.2) _
      rw [hdouble.1]
    rw [foldlM_cons, foldlM_cons, hstep]
    cases ht : @chScalStep Jets.affine n s i with
    | none => exact ⟨rfl, fun t ht => by cases ht⟩
    | some t =>
      have hbased : t.1.isBased ∧ t.2.isBased := by
        simp only [chScalStep, bind_eq_some] at ht
        obtain ⟨acc, hacc', q, hq, heq⟩ := ht
        cases heq
        exact ⟨hacc.2 acc hacc', hdouble.2 q hq⟩
      exact ih hbased.1 hbased.2

theorem same_chScal (n : Nat) (hp : p.isBased) :
    Same (@chScal Hoon.affine n p) (@chScal Jets.affine n p) := by
  obtain ⟨hloop, hbased⟩ := foldlM_chScalStep n (range (width n)) (s := (aId, p)) isBased_id hp
  unfold chScal
  rw [hloop]
  refine ⟨rfl, fun q hq => ?_⟩
  simp only [Option.mem_def, bind_eq_some] at hq
  obtain ⟨t, ht, heq⟩ := hq
  cases heq
  exact hbased t ht

theorem same_noncePoint (hp : p.isBased) (chal sig : Nat) :
    Same (@noncePoint Hoon.affine p chal sig) (@noncePoint Jets.affine p chal sig) := by
  refine (same_chScal sig isBased_gen).bind fun left hleft => ?_
  refine (same_chScal chal hp).bind fun right hright => ?_
  exact (same_neg hright).bind fun neg hneg => same_add hleft hneg

end Points

/-! ### Tuples -/

/-- `levy` up to the first tuple that does not pass. -/
theorem allM_eq_none {α : Type} {f : α → Option Bool} {l : List α} :
    l.allM f = none ↔ ∃ l1 x l2, l = l1 ++ x :: l2 ∧ (∀ y ∈ l1, f y = some true) ∧ f x = none := by
  induction l with
  | nil => simp [allM]
  | cons x l ih =>
    cases hx : f x with
    | none =>
      simp only [allM, hx, Option.bind_eq_bind, Option.bind_none, true_iff]
      exact ⟨[], x, l, rfl, by simp, hx⟩
    | some b =>
      cases b with
      | false =>
        simp only [allM, hx, Option.bind_eq_bind, Option.bind_some, Option.pure_def,
          reduceCtorEq, false_iff]
        rintro ⟨l1, y, l2, heq, htrue, hnone⟩
        cases l1 with
        | nil =>
          rw [nil_append, cons.injEq] at heq
          rw [← heq.1, hx] at hnone
          cases hnone
        | cons z l1 =>
          rw [cons_append, cons.injEq] at heq
          have hz := htrue z (.head _)
          rw [← heq.1, hx] at hz
          cases hz
      | true =>
        simp only [allM, hx, Option.bind_eq_bind, Option.bind_some, ih]
        constructor
        · rintro ⟨l1, y, l2, rfl, htrue, hnone⟩
          exact ⟨x :: l1, y, l2, rfl, forall_mem_cons.2 ⟨hx, htrue⟩, hnone⟩
        rintro ⟨l1, y, l2, heq, htrue, hnone⟩
        cases l1 with
        | nil =>
          rw [nil_append, cons.injEq] at heq
          rw [← heq.1, hx] at hnone
          cases hnone
        | cons z l1 =>
          rw [cons_append, cons.injEq] at heq
          exact ⟨l1, y, l2, heq.2, (forall_mem_cons.1 htrue).2, hnone⟩

namespace Jets.Args

/-- The scalars are as `verify` asks for them. -/
def InRange (t : Args) : Prop :=
  0 < t.chal ∧ t.chal < gOrder ∧ 0 < t.sig ∧ t.sig < gOrder

instance (t : Args) : Decidable t.InRange := inferInstanceAs (Decidable (_ ∧ _))

variable [F6] [Varlen]

/-- The recomputed nonce point. -/
def nonce (t : Args) : Option APt := @noncePoint Jets.affine t.pubkey t.chal t.sig

/-- The nonce point exists and is not at infinity, nor on the line `x = 0`. -/
def Regular (t : Args) : Prop := ∃ s, t.nonce = some s ∧ s.x ≠ f6Zero

/-- The challenge is the hash of the nonce point. -/
def Signed (t : Args) : Prop :=
  ∃ s hash, t.nonce = some s ∧ hashVarlen (preImage s t.pubkey t.m) = some hash ∧
    truncGOrder hash = t.chal

end Jets.Args

open Jets

theorem hashVarlen_preImage [Varlen] (s pk : APt) (m : Digest) : hashVarlen (preImage s pk m) =
      if s.isBased && (pk.isBased && m.isBased) then some (Varlen.sponge (preImage s pk m))
      else none := by
  have hall : (preImage s pk m).all based = (s.isBased && (pk.isBased && m.isBased)) := by
    simp [preImage, f6ltToList, digestToList, isBased, F6lt.isBased, Digest.isBased,
      Bool.and_assoc]
  unfold hashVarlen
  rw [hall]
  cases s.isBased && (pk.isBased && m.isBased) <;> rfl

/-- A tuple that cannot be read cannot be hashed. -/
theorem hashVarlen_of_not_isBased [Varlen] {t : Args} (h : t.isBased = false) (s : APt) :
    hashVarlen (preImage s t.pubkey t.m) = none := by
  unfold Args.isBased at h
  rw [hashVarlen_preImage, h, Bool.and_false, if_neg Bool.false_ne_true]

theorem noncePoint_of_isBased [F6] {t : Args} (h : t.isBased) :
    @noncePoint Hoon.affine t.pubkey t.chal t.sig = t.nonce := by
  have hpk : t.pubkey.isBased := (Bool.and_eq_true _ _ ▸ h).1
  exact (same_noncePoint hpk t.chal t.sig).1

/-- A nonce point that exists and is not regular. -/
theorem nonce_eq_none_iff [F6] {t : Args} (h : ¬ t.Regular) :
    t.nonce = none ↔ ∀ s, t.nonce = some s → s.x ≠ f6Zero := by
  constructor
  · intro hnone s hs
    rw [hnone] at hs
    cases hs
  · intro hx
    cases hs : t.nonce with
    | none => rfl
    | some s => exact absurd ⟨s, hs, hx s hs⟩ h

/-- A jet does what the gate does: the same value, or an error where the gate crashes. -/
def Agrees : Option Bool → Outcome Unit Bool → Prop
  | some b, .ok b' => b = b'
  | none, .err _ => True
  | _, _ => False

variable {gate : Option Bool}

@[simp] theorem agrees_ok {b : Bool} : Agrees gate (.ok b) ↔ gate = some b := by
  cases gate <;> simp [Agrees]

@[simp] theorem agrees_err {e : Unit} : Agrees gate (.err e) ↔ gate = none := by
  cases gate <;> simp [Agrees]

@[simp] theorem agrees_panic : ¬ Agrees gate .panic := by
  cases gate <;> simp [Agrees]

section Verify

variable [F6] [Varlen] {t : Args}

theorem verifyArgs_of_not_inRange (h : ¬ t.InRange) : @verifyArgs Hoon.affine _ t = some false :=
  if_neg h

/-- The assertion of `verify` never fails. -/
theorem verifyArgs_of_inRange (h : t.InRange) :
    @verifyArgs Hoon.affine _ t = (@noncePoint Hoon.affine t.pubkey t.chal t.sig).bind fun s =>
      (hashVarlen (preImage s t.pubkey t.m)).map fun hash => t.chal == truncGOrder hash := by
  unfold verifyArgs verify
  rw [if_pos (show 0 < t.chal ∧ t.chal < gOrder ∧ 0 < t.sig ∧ t.sig < gOrder from h)]
  cases @noncePoint Hoon.affine t.pubkey t.chal t.sig with
  | none => rfl
  | some s =>
    simp only [Option.bind_eq_bind, Option.bind_some, guard, toNoun_point_ne, ne_eq,
      not_false_eq_true, if_true, Option.pure_def]
    cases hashVarlen (preImage s t.pubkey t.m) <;> rfl

/-- A tuple that can be read is hashed whenever its nonce point exists. -/
theorem hashVarlen_of_isBased (h : t.isBased) {s : APt} (hs : t.nonce = some s) :
    hashVarlen (preImage s t.pubkey t.m) = some (Varlen.sponge (preImage s t.pubkey t.m)) := by
  unfold Args.isBased at h
  have hpk : t.pubkey.isBased := (Bool.and_eq_true _ _ ▸ h).1
  have hbased := (same_noncePoint hpk t.chal t.sig).2 s hs
  rw [hashVarlen_preImage, h, hbased]
  rfl

theorem verifyArgs_eq_none :
    @verifyArgs Hoon.affine _ t = none ↔ t.InRange ∧ (t.isBased → t.nonce = none) := by
  by_cases hrange : t.InRange
  · rw [verifyArgs_of_inRange hrange]
    cases hbased : t.isBased with
    | false =>
      have hhash := hashVarlen_of_not_isBased hbased
      simp [hrange, hhash]
    | true =>
      rw [noncePoint_of_isBased hbased]
      cases hnonce : t.nonce with
      | none => simp [hrange]
      | some s => simp [hashVarlen_of_isBased hbased hnonce]
  · simp [verifyArgs_of_not_inRange hrange, hrange]

theorem verifyArgs_eq_true : @verifyArgs Hoon.affine _ t = some true ↔ t.InRange ∧ t.Signed := by
  by_cases hrange : t.InRange
  · rw [verifyArgs_of_inRange hrange]
    unfold Args.Signed
    cases hbased : t.isBased with
    | false =>
      have hhash := hashVarlen_of_not_isBased hbased
      simp [hhash]
    | true =>
      rw [noncePoint_of_isBased hbased]
      simp [Option.bind_eq_some_iff, hrange, @eq_comm _ t.chal]
  · simp [verifyArgs_of_not_inRange hrange, hrange]

/-- What the jet computes for a tuple that it can read. -/
theorem verifyAffine_of_regular (h : t.isBased) (hregular : t.Regular) [Decidable t.Signed] :
    @verifyAffine Jets.affine _ t = .ok (decide t.Signed) := by
  obtain ⟨s, hs, hx⟩ := hregular
  have hnonce : @noncePoint Jets.affine t.pubkey t.chal t.sig = some s := hs
  have hsigned : t.Signed ↔ truncGOrder (Varlen.sponge (preImage s t.pubkey t.m)) = t.chal := by
    unfold Args.Signed
    simp [hs, hashVarlen_of_isBased h hs]
  simp only [verifyAffine, hnonce, hx, if_false, hashVarlen_of_isBased h hs, hsigned]
  rfl

theorem verifyAffine_of_not_regular (h : ¬ t.Regular) :
    @verifyAffine Jets.affine _ t = .err () := by
  unfold verifyAffine
  cases hs : @noncePoint Jets.affine t.pubkey t.chal t.sig with
  | none => rfl
  | some s =>
    have hx : s.x = f6Zero := by
      by_contra hx
      exact h ⟨s, hs, hx⟩
    simp [hx]

open Classical in
/-- What the gate computes for a tuple that the jet can read. -/
theorem verifyArgs_of_regular (h : t.isBased) (hregular : t.Regular) :
    @verifyArgs Hoon.affine _ t = some (decide (t.InRange ∧ t.Signed)) := by
  obtain ⟨s, hs, -⟩ := hregular
  cases hgate : @verifyArgs Hoon.affine _ t with
  | none =>
    have hnonce := (verifyArgs_eq_none.1 hgate).2 h
    rw [hs] at hnonce
    cases hnonce
  | some b =>
    have htrue : b ↔ t.InRange ∧ t.Signed := by
      rw [← verifyArgs_eq_true, hgate, Option.some.injEq]
    cases b <;> simp_all

/-- One tuple. The jet has no range check, and fails at a nonce point with x-coordinate zero. -/
theorem verifyAffineJet_agrees_iff (t : Args) :
    Agrees (@verifyArgs Hoon.affine _ t) (@verifyAffineJet Jets.affine _ t) ↔
      if t.InRange then t.isBased → ∀ s, t.nonce = some s → s.x ≠ f6Zero
      else t.isBased ∧ t.Regular ∧ ¬ t.Signed := by
  classical
  unfold verifyAffineJet
  cases hbased : t.isBased with
  | false =>
    -- The jet cannot read the tuple, the gate crashes if it gets to the hash.
    rw [if_neg Bool.false_ne_true, agrees_err, verifyArgs_eq_none]
    by_cases hrange : t.InRange <;> simp [hrange, hbased]
  | true =>
    rw [if_pos rfl]
    by_cases hregular : t.Regular
    · have hx : ∀ s, t.nonce = some s → s.x ≠ f6Zero := by
        obtain ⟨s, hs, hx⟩ := hregular
        intro s' hs'
        rw [hs, Option.some.injEq] at hs'
        exact hs' ▸ hx
      rw [verifyAffine_of_regular hbased hregular, agrees_ok,
        verifyArgs_of_regular hbased hregular, Option.some.injEq]
      by_cases hrange : t.InRange
      · simpa [hrange] using hx
      · simp [hrange, hregular]
    · rw [verifyAffine_of_not_regular hregular, agrees_err, verifyArgs_eq_none,
        ← nonce_eq_none_iff hregular]
      by_cases hrange : t.InRange <;> simp [hrange, hbased, hregular]

variable {batch : List Args}

theorem batchVerify_eq_true :
    @batchVerify Hoon.affine _ batch = some true ↔ ∀ t ∈ batch, t.InRange ∧ t.Signed := by
  unfold batchVerify
  rw [Lib.allM_eq_some_true]
  simp [verifyArgs_eq_true]

/-- A batch agrees if every outcome of the jet does. -/
def BatchAgrees (batch : List Args) : Prop :=
  ∀ o, @BatchVerifyAffineJet Jets.affine _ batch o → Agrees (@batchVerify Hoon.affine _ batch) o

/-- A batch that can be read. The jet may look at any tuple first, so each has to be regular. -/
theorem batchAgrees_of_isBased (hbased : ∀ t ∈ batch, t.isBased) :
    BatchAgrees batch ↔ (∀ t ∈ batch, t.Regular) ∧
      ((∀ t ∈ batch, t.Signed) → ∀ t ∈ batch, t.InRange) := by
  classical
  constructor
  · intro h
    -- The jet may come to an irregular tuple before any other, and then it panics.
    have hregular : ∀ t ∈ batch, t.Regular := by
      intro t ht
      by_contra hirregular
      have herr := verifyAffine_of_not_regular hirregular
      exact agrees_panic (h _ (@BatchVerifyAffineJet.unwrap Jets.affine _ batch t hbased ht
        (by simp [herr])))
    refine ⟨hregular, fun hsigned => ?_⟩
    have hgate := h _ (@BatchVerifyAffineJet.valid Jets.affine _ batch hbased fun t ht => by
      rw [verifyAffine_of_regular (hbased t ht) (hregular t ht), decide_eq_true (hsigned t ht)])
    rw [agrees_ok, batchVerify_eq_true] at hgate
    exact fun t ht => (hgate t ht).1
  · rintro ⟨hregular, hrange⟩ o ho
    have hjet : ∀ t ∈ batch, @verifyAffine Jets.affine _ t = .ok (decide t.Signed) :=
      fun t ht => verifyAffine_of_regular (hbased t ht) (hregular t ht)
    cases ho with
    | unread ht hnot => rw [hbased _ ht] at hnot; cases hnot
    | valid _ hall =>
      have hsigned : ∀ t ∈ batch, t.Signed := by
        intro t ht
        have hok := hall t ht
        rwa [hjet t ht, Outcome.ok.injEq, decide_eq_true_eq] at hok
      rw [agrees_ok, batchVerify_eq_true]
      exact fun t ht => ⟨hrange hsigned t ht, hsigned t ht⟩
    | @invalid t _ ht hfalse =>
      have hsigned : ¬ t.Signed := by
        rwa [hjet t ht, Outcome.ok.injEq, decide_eq_false_iff_not] at hfalse
      cases hgate : @batchVerify Hoon.affine _ batch with
      | none =>
        obtain ⟨l1, u, l2, rfl, -, hu⟩ := allM_eq_none.1 hgate
        have hmem : u ∈ l1 ++ u :: l2 := mem_append_right _ (.head _)
        rw [verifyArgs_of_regular (hbased u hmem) (hregular u hmem)] at hu
        cases hu
      | some b =>
        cases b with
        | false => rfl
        | true => exact absurd (batchVerify_eq_true.1 hgate t ht).2 hsigned
    | @unwrap t _ ht hnot => exact absurd (hjet t ht) (hnot _)

/-- A batch with a tuple that cannot be read: the gate must crash before it answers. -/
theorem batchAgrees_of_not_isBased (hbased : ¬ ∀ t ∈ batch, t.isBased) :
    BatchAgrees batch ↔ ∃ l1 t l2, batch = l1 ++ t :: l2 ∧
      (∀ u ∈ l1, u.InRange ∧ u.Signed) ∧ t.InRange ∧ (t.isBased → t.nonce = none) := by
  simp only [not_forall] at hbased
  obtain ⟨u, hu, hubased⟩ := hbased
  have hnone : BatchAgrees batch ↔ @batchVerify Hoon.affine _ batch = none := by
    constructor
    · intro h
      have herr := h _ (@BatchVerifyAffineJet.unread Jets.affine _ batch u hu
        (Bool.eq_false_iff.2 hubased))
      cases hgate : @batchVerify Hoon.affine _ batch with
      | none => rfl
      | some b => rw [hgate] at herr; cases herr
    · intro hgate o ho
      rw [hgate]
      cases ho with
      | unread => trivial
      | valid hall | invalid hall | unwrap hall => exact absurd (hall u hu) hubased
  rw [hnone]
  unfold batchVerify
  rw [allM_eq_none]
  simp [verifyArgs_eq_true, verifyArgs_eq_none]

/-- Where the jets do what the gates do. -/
theorem jets_agree_iff :
    (∀ t : Args, Agrees (@verifyArgs Hoon.affine _ t) (@verifyAffineJet Jets.affine _ t) ↔
      if t.InRange then t.isBased → ∀ s, t.nonce = some s → s.x ≠ f6Zero
      else t.isBased ∧ t.Regular ∧ ¬ t.Signed) ∧ ∀ batch : List Args, BatchAgrees batch ↔
      if ∀ t ∈ batch, t.isBased then (∀ t ∈ batch, t.Regular) ∧
        ((∀ t ∈ batch, t.Signed) → ∀ t ∈ batch, t.InRange)
      else ∃ l₁ t l₂, batch = l₁ ++ t :: l₂ ∧ (∀ u ∈ l₁, u.InRange ∧ u.Signed) ∧ t.InRange ∧
        (t.isBased → t.nonce = none) := by
  refine ⟨verifyAffineJet_agrees_iff, fun batch => ?_⟩
  by_cases hbased : ∀ t ∈ batch, t.isBased
  · rw [if_pos hbased]
    exact batchAgrees_of_isBased hbased
  · rw [if_neg hbased]
    exact batchAgrees_of_not_isBased hbased

end Verify

/-- With challenge and response zero the nonce point is the identity, in every arithmetic and for
every hash. The gate answers no, the jet unwraps an error. -/
theorem zero_disagrees [F6] [Varlen] :
    @batchVerify Hoon.affine _ [⟨aGen, ⟨0, 0, 0, 0, 0⟩, 0, 0⟩] = some false ∧
    @BatchVerifyAffineJet Jets.affine _ [⟨aGen, ⟨0, 0, 0, 0, 0⟩, 0, 0⟩] .panic ∧
    ¬ BatchAgrees [⟨aGen, ⟨0, 0, 0, 0, 0⟩, 0, 0⟩] := by
  have hgate : @batchVerify Hoon.affine _ [⟨aGen, ⟨0, 0, 0, 0, 0⟩, 0, 0⟩] = some false := rfl
  -- A sum with the identity is the other summand, so no operation of the field is looked into.
  have herr : @verifyAffine Jets.affine _ ⟨aGen, ⟨0, 0, 0, 0, 0⟩, 0, 0⟩ = .err () := rfl
  have hpanic : @BatchVerifyAffineJet Jets.affine _ [⟨aGen, ⟨0, 0, 0, 0, 0⟩, 0, 0⟩] .panic :=
    @BatchVerifyAffineJet.unwrap Jets.affine _ _ _ (by decide +kernel) (.head _) (by simp [herr])
  exact ⟨hgate, hpanic, fun h => agrees_panic (h _ hpanic)⟩

section Sextic

/-- The element with these coefficients modulo the prime. -/
def sextic (c : Nat → Nat) : F6lt :=
  ⟨c 0 % basePrime, c 1 % basePrime, c 2 % basePrime, c 3 % basePrime, c 4 % basePrime,
    c 5 % basePrime⟩

theorem isBased_sextic (c : Nat → Nat) : (sextic c).isBased := by
  simp [sextic, F6lt.isBased, based, Nat.mod_lt, basePrime]

def coefficient (f : F6lt) (i : Nat) : Nat := (f6ltToList f).getD i 0

/-- The product of two polynomials modulo `X ^ 6 - 7`. -/
def sexticMul (f g : F6lt) : F6lt := sextic fun k => ((List.range 6).map fun i =>
  coefficient f i * (coefficient g (k - i) * (if i ≤ k then 1 else 0) +
    7 * coefficient g (k + 6 - i))).sum

/-- The field extension. The inverse is the power by Fermat. -/
local instance sexticF6 : F6 where
  add f g := sextic fun i => coefficient f i + coefficient g i
  neg f := sextic fun i => basePrime - coefficient f i
  scal c f := sextic fun i => c * coefficient f i
  mul := sexticMul
  square f := sexticMul f f
  inv f := sexticMul f6One ((sexticMul f)^[basePrime ^ 6 - 2] f6One)
  square_eq _ _ := rfl
  add_based _ _ _ _ := isBased_sextic _
  neg_based _ _ := isBased_sextic _
  scal_based _ _ _ _ := isBased_sextic _
  mul_based _ _ _ _ := isBased_sextic _
  inv_based _ _ := isBased_sextic _

local instance zeroHash : Varlen := constantVarlen ⟨1, 0, 0, 0, 0⟩

theorem not_batchAgrees_zero :
    @batchVerify Hoon.affine _ [⟨aGen, ⟨0, 0, 0, 0, 0⟩, 0, 0⟩] = some false ∧
    @BatchVerifyAffineJet Jets.affine _ [⟨aGen, ⟨0, 0, 0, 0, 0⟩, 0, 0⟩] .panic ∧
    ¬ BatchAgrees [⟨aGen, ⟨0, 0, 0, 0, 0⟩, 0, 0⟩] := zero_disagrees

end Sextic

end

/-!
## The encodings of a signature

The id of a transaction hashes the limbs of its signatures, and verification looks at the numbers
that they make up. A number has many encodings: zero limbs can be anywhere, and two limbs of 32
bits can be one limb of 64. `eq_iff_of_accepted` says what tells accepted encodings of the same
scalars apart.
-/

/-- The signature passes the verification of either version of the engine. -/
def Accepted (c : Cheetah) (pk : SchnorrPubkey) (m : Digest) (s : SchnorrSignature) : Prop :=
  V0.batchVerifyAtoms [(pk, m, s.chal.toAtom, s.sig.toAtom)] = true ∨
    TxEngine.batchVerify [(pk, m, s)] = true

theorem accepted_iff {c : Cheetah} {pk : SchnorrPubkey} {m : Digest} {s : SchnorrSignature} :
    Accepted c pk m s ↔ c.verify pk m s.chal.toAtom s.sig.toAtom := by
  simp [Accepted, V0.batchVerifyAtoms, TxEngine.batchVerify, verifySignature]

/-- How many blocks each limb fills. -/
def blocks (t : T8) : List Nat := (t8ToList t).map (met 5)

theorem toAtom_eq (t : T8) : t.toAtom = t8ToAtom t := by
  have hstep : (fun w n => w + n * 2 ^ (32 * ((width w + 31) / 32))) = cat 5 := by
    funext w n
    rw [cat_eq, Nat.mul_comm n]
    rfl
  unfold T8.toAtom t8ToAtom rap
  rw [hstep]
  rfl

/-- Limbs that fill the same blocks and make up the same number are the same. -/
theorem t8_eq_iff {t t' : T8} : t = t' ↔ blocks t = blocks t' ∧ t.toAtom = t'.toAtom := by
  rw [toAtom_eq, toAtom_eq]
  constructor
  · intro h
    exact h ▸ ⟨rfl, rfl⟩
  · rintro ⟨hblocks, hatom⟩
    exact t8ToList_injective ((rap_inj hblocks).1 hatom)

section Accepted

variable [Affine] [Varlen] {pk : SchnorrPubkey} {m : Digest} {s s' : SchnorrSignature}

/-- The challenge of an accepted signature is below the order. -/
theorem chal_lt_of_accepted
    (h : Accepted gateCheetah pk m s ∨ Accepted jetCheetah pk m s) : s.chal.toAtom < gOrder := by
  rw [accepted_iff, accepted_iff] at h
  rcases h with h | h
  · have hgate : verify pk m s.chal.toAtom s.sig.toAtom = some true := of_decide_eq_true h
    unfold verify at hgate
    split_ifs at hgate with hrange
    · exact hrange.2.1
    · cases hgate
  · have hjet : Jets.verifyAffineJet ⟨pk, m, s.chal.toAtom, s.sig.toAtom⟩ = .ok true :=
      of_decide_eq_true h
    unfold Jets.verifyAffineJet Jets.verifyAffine at hjet
    split at hjet
    case isFalse => cases hjet
    case isTrue =>
      split at hjet
      case h_1 => cases hjet
      case h_2 =>
        split at hjet
        case isTrue => cases hjet
        case isFalse =>
          split at hjet
          case h_1 => cases hjet
          case h_2 hash _ =>
            simp only [NounSerde.Outcome.ok.injEq, beq_iff_eq] at hjet
            exact hjet ▸ truncGOrder_lt hash

/-- Accepted signatures with the same challenge and the same response modulo the order have the
same encoding if and only if their limbs fill the same blocks and the responses are as many times
above the order. A response that the gates accept is below it. -/
theorem eq_iff_of_accepted (h : Accepted gateCheetah pk m s ∨ Accepted jetCheetah pk m s)
    (h' : Accepted gateCheetah pk m s' ∨ Accepted jetCheetah pk m s')
    (hchal : s.chal.toAtom % gOrder = s'.chal.toAtom % gOrder)
    (hsig : s.sig.toAtom % gOrder = s'.sig.toAtom % gOrder) :
    s = s' ↔ blocks s.chal = blocks s'.chal ∧ blocks s.sig = blocks s'.sig ∧
      s.sig.toAtom / gOrder = s'.sig.toAtom / gOrder := by
  rw [Nat.mod_eq_of_lt (chal_lt_of_accepted h), Nat.mod_eq_of_lt (chal_lt_of_accepted h')] at hchal
  constructor
  · intro heq
    exact heq ▸ ⟨rfl, rfl, rfl⟩
  rintro ⟨hblocks, hblocks', hdiv⟩
  have hsig' : s.sig.toAtom = s'.sig.toAtom := by
    rw [← Nat.div_add_mod s.sig.toAtom gOrder, hdiv, hsig, Nat.div_add_mod]
  have hc : s.chal = s'.chal := t8_eq_iff.2 ⟨hblocks, hchal⟩
  have hs : s.sig = s'.sig := t8_eq_iff.2 ⟨hblocks', hsig'⟩
  cases s
  cases s'
  simp only at hc hs
  rw [hc, hs]

end Accepted

section Small

attribute [local instance] residueAffine

local instance encodingVarlen : Varlen := constantVarlen ⟨5, 0, 0, 0, 0⟩

/-- A signature, and the same with a zero limb in front of the challenge. -/
theorem eq_iff_of_accepted_small :
    (⟨⟨5, 0, 0, 0, 0, 0, 0, 0⟩, ⟨40, 0, 0, 0, 0, 0, 0, 0⟩⟩ : SchnorrSignature) =
        ⟨⟨0, 5, 0, 0, 0, 0, 0, 0⟩, ⟨40, 0, 0, 0, 0, 0, 0, 0⟩⟩ ↔
      blocks ⟨5, 0, 0, 0, 0, 0, 0, 0⟩ = blocks ⟨0, 5, 0, 0, 0, 0, 0, 0⟩ ∧
        blocks ⟨40, 0, 0, 0, 0, 0, 0, 0⟩ = blocks ⟨40, 0, 0, 0, 0, 0, 0, 0⟩ ∧
        T8.toAtom ⟨40, 0, 0, 0, 0, 0, 0, 0⟩ / gOrder =
          T8.toAtom ⟨40, 0, 0, 0, 0, 0, 0, 0⟩ / gOrder := by
  have h : Accepted gateCheetah (residuePoint 7) ⟨0, 0, 0, 0, 0⟩
      ⟨⟨5, 0, 0, 0, 0, 0, 0, 0⟩, 40, 0, 0, 0, 0, 0, 0, 0⟩ := by
    rw [accepted_iff]
    decide +kernel
  have h' : Accepted jetCheetah (residuePoint 7) ⟨0, 0, 0, 0, 0⟩
      ⟨⟨0, 5, 0, 0, 0, 0, 0, 0⟩, 40, 0, 0, 0, 0, 0, 0, 0⟩ := by
    rw [accepted_iff]
    decide +kernel
  exact eq_iff_of_accepted (.inl h) (.inr h') (by decide) rfl

/-- A zero limb in front of the challenge. -/
theorem not_eq_shifted : ∃ s s' : SchnorrSignature, s.isBased = true ∧ s'.isBased = true ∧
      Accepted gateCheetah (residuePoint 7) ⟨0, 0, 0, 0, 0⟩ s ∧
      Accepted gateCheetah (residuePoint 7) ⟨0, 0, 0, 0, 0⟩ s' ∧
      s.chal.toAtom = s'.chal.toAtom ∧ s.sig.toAtom = s'.sig.toAtom ∧ s ≠ s' := by
  refine ⟨⟨⟨5, 0, 0, 0, 0, 0, 0, 0⟩, 40, 0, 0, 0, 0, 0, 0, 0⟩,
    ⟨⟨0, 5, 0, 0, 0, 0, 0, 0⟩, 40, 0, 0, 0, 0, 0, 0, 0⟩, by decide, by decide, ?_, ?_, by decide,
    by decide, by decide⟩
  · rw [accepted_iff]
    decide +kernel
  · rw [accepted_iff]
    decide +kernel

end Small

end Nockchain.Schnorr
