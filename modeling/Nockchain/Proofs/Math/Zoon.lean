import Nockchain.Math.Zoon

/-!
# `Nockchain.Proofs.Math.Zoon`: the treap orders in Rust and in Hoon

The two `dor-tip` go down to the first difference of two nouns and decide there.
`zoon.hoon` has the smaller atom first and an atom before a cell. `dor_tip` of
`common.rs` takes the loobean `NO` of `lth` for true, so that it has the larger
atom first, and it is false of an atom and a cell in either order. So it agrees
with `dor-tip` where the nouns are equal or the first has a cell for an atom of
the second, and `gor_tip` and `mor_tip` agree with theirs there and where the
hashes differ (`orders_agree_iff`).
-/

set_option autoImplicit false

namespace Nockchain.Math

open Lib Nat

/-! ### Atoms and digests -/

theorem lthB_eq (a b : Nat) : lthB a b = decide (a < b) := by
  have hle : ∀ {x y : Nat}, width x < width y → x < y := by
    intro x y h
    have hx := lt_two_pow_width x
    have hy : ¬ y < 2 ^ width x := fun hlt => by
      have := width_le_iff.2 hlt
      omega
    omega
  unfold lthB
  split
  · rfl
  split
  · rename_i h
    have := hle h
    simp only [false_eq_decide_iff]
    omega
  split
  · rename_i h
    simpa using hle h
  · rfl

theorem lth_eq_no (a b : Nat) : lth a b = .atom 1 ↔ b ≤ a := by
  rw [lth, lthB_eq]
  by_cases h : a < b
  · simp [h, yes]
  · simp [h, no, not_lt.1 h]

/-- Numbers with a last digit compare by what is above it first. -/
theorem add_mul_lt_iff {p r r' q q' : Nat} (hr : r < p) (hr' : r' < p) :
    r + p * q < r' + p * q' ↔ q < q' ∨ q = q' ∧ r < r' := by
  rcases lt_trichotomy q q' with h | rfl | h
  · have hmul : p * (q + 1) ≤ p * q' := mul_le_mul_left p h
    rw [mul_add] at hmul
    refine iff_of_true ?_ (.inl h)
    omega
  · simp
  · have hmul : p * (q' + 1) ≤ p * q := mul_le_mul_left p h
    rw [mul_add] at hmul
    refine iff_of_false ?_ ?_ <;> omega

/-- The loop compares the numbers with the words as their digits. -/
theorem lthWords_eq {p : Nat} (hp : 1 < p) {as bs : List Nat} (hlength : as.length = bs.length)
    (has : ∀ a ∈ as, a < p) (hbs : ∀ b ∈ bs, b < p) :
    lthWords as bs ↔ ofDigits p as.reverse < ofDigits p bs.reverse := by
  induction as generalizing bs with
  | nil =>
    cases bs with
    | nil => simp [lthWords]
    | cons b bs => cases hlength
  | cons a as ih =>
    cases bs with
    | nil => cases hlength
    | cons b bs =>
      have hlength : as.length = bs.length := succ.inj hlength
      obtain ⟨-, has⟩ := List.forall_mem_cons.1 has
      obtain ⟨-, hbs⟩ := List.forall_mem_cons.1 hbs
      have hlt : ∀ ds : List Nat, (∀ d ∈ ds, d < p) → ofDigits p ds.reverse < p ^ ds.length := by
        intro ds hds
        rw [← List.length_reverse]
        exact ofDigits_lt_base_pow_length hp (by simpa using hds)
      have hb := hlt bs hbs
      rw [← hlength] at hb
      simp only [List.reverse_cons, ofDigits_append, ofDigits_singleton,
        List.length_reverse]
      rw [← hlength, add_mul_lt_iff (hlt as has) hb, ← ih hlength has hbs, lthWords]
      rcases lt_trichotomy a b with h | rfl | h
      · simp [h]
      · simp
      · simp [h, h.ne', not_lt.2 h.le]

section Digests

variable {c d : Digest}

theorem ofDigits_digest (d : Digest) :
    ofDigits basePrime [d.a, d.b, d.c, d.d, d.e] = d.toAtom := by
  simp only [ofDigits_cons, ofDigits_nil, Digest.toAtom]
  ring

theorem lt_of_isBased (hd : d.isBased) : ∀ x ∈ [d.e, d.d, d.c, d.b, d.a], x < basePrime := by
  simp only [Digest.isBased, based, Bool.and_eq_true, decide_eq_true_eq] at hd
  simp [hd]

/-- `lth_tip` compares digests of field elements as `lth-tip` does. -/
theorem lthTip_eq (hc : c.isBased) (hd : d.isBased) : lthTip c d = Nockchain.lthTip c d := by
  rw [Bool.eq_iff_iff, Nockchain.lthTip, decide_eq_true_eq, ← ofDigits_digest c,
    ← ofDigits_digest d]
  exact lthWords_eq (by decide) rfl (lt_of_isBased hc) (lt_of_isBased hd)

/-- Digests of field elements with one atom are equal. -/
theorem eq_of_toAtom_eq (hc : c.isBased) (hd : d.isBased) (h : c.toAtom = d.toAtom) : c = d := by
  rw [← ofDigits_digest c, ← ofDigits_digest d] at h
  have hwords : [c.a, c.b, c.c, c.d, c.e] = [d.a, d.b, d.c, d.d, d.e] :=
    ofDigits_inj_of_len_eq (by decide) rfl
      (fun x hx => lt_of_isBased hc x (List.mem_reverse.1 hx))
      (fun x hx => lt_of_isBased hd x (List.mem_reverse.1 hx)) h
  cases c
  cases d
  simp_all

end Digests

/-! ### The first difference -/

/-- How two nouns differ where they first do. -/
inductive Difference where
  | same
  | atoms (a b : Nat) (ne : a ≠ b)
  | atomCell
  | cellAtom

namespace Difference

/-- The same with the nouns exchanged. -/
def swap : Difference → Difference
  | same => same
  | atoms a b ne => atoms b a ne.symm
  | atomCell => cellAtom
  | cellAtom => atomCell

/-- What `dor-tip` says of it. -/
def dor : Difference → Bool
  | same => true
  | atoms a b _ => a < b
  | atomCell => true
  | cellAtom => false

/-- What `dor_tip` says of it. -/
def dorRs : Difference → Bool
  | same => true
  | atoms a b _ => b < a
  | atomCell => false
  | cellAtom => false

theorem dorRs_eq_dor {d : Difference} : d.dorRs = d.dor ↔ d = same ∨ d = cellAtom := by
  cases d with
  | atoms a b ne =>
    simp only [dorRs, dor, decide_eq_decide, reduceCtorEq, or_self, iff_false]
    omega
  | _ => simp [dorRs, dor]

theorem dorRs_or_swap {d : Difference} :
    (d.dorRs || d.swap.dorRs) ↔ d ≠ atomCell ∧ d ≠ cellAtom := by
  cases d with
  | atoms a b ne =>
    simp only [dorRs, swap, Bool.or_eq_true, decide_eq_true_eq, ne_eq, reduceCtorEq,
      not_false_eq_true, and_self, iff_true]
    omega
  | _ => simp [dorRs, swap]

end Difference

/-- The first difference of two nouns, in the heads of two cells where these differ and in the
tails otherwise. -/
def firstDifference : Noun → Noun → Difference
  | .atom a, .atom b => if h : a = b then .same else .atoms a b h
  | .atom _, .cell _ _ => .atomCell
  | .cell _ _, .atom _ => .cellAtom
  | .cell h t, .cell h' t' => if h = h' then firstDifference t t' else firstDifference h h'

theorem firstDifference_eq_same {a b : Noun} : firstDifference a b = .same ↔ a = b := by
  fun_induction firstDifference a b with
  | case1 | case2 | case3 | case4 => simp_all
  | case5 h t t' iht => simp [iht]
  | case6 h t h' t' hne ihh => simp [ihh, hne]

theorem firstDifference_swap (a b : Noun) : firstDifference b a = (firstDifference a b).swap := by
  fun_induction firstDifference a b with
  | case1 => simp [firstDifference, Difference.swap]
  | case2 a b hne => simp [firstDifference, Ne.symm hne, Difference.swap]
  | case3 | case4 => rfl
  | case5 h t t' iht => simpa [firstDifference] using iht
  | case6 h t h' t' hne ihh => simpa [firstDifference, Ne.symm hne] using ihh

theorem dorTip_eq_dor (a b : Noun) : Nockchain.dorTip a b = (firstDifference a b).dor := by
  fun_induction firstDifference a b with
  | case1 => simp [Nockchain.dorTip, Difference.dor]
  | case2 a b hne => simp [Nockchain.dorTip, Difference.dor, hne]
  | case3 | case4 => rfl
  | case5 h t t' iht => simpa [Nockchain.dorTip] using iht
  | case6 h t h' t' hne ihh => simpa [Nockchain.dorTip, hne] using ihh

theorem dorTip_eq_dorRs (a b : Noun) : dorTip a b = (firstDifference a b).dorRs := by
  fun_induction firstDifference a b with
  | case1 => simp [dorTip, Difference.dorRs]
  | case2 a b hne =>
    simp only [dorTip, hne, if_false, lth_eq_no, Difference.dorRs, decide_eq_decide]
    omega
  | case3 | case4 => rfl
  | case5 h t t' iht =>
    simp only [dorTip, true_and, if_true]
    split
    · rename_i heq
      rw [heq, firstDifference_eq_same.2 rfl]
      rfl
    · exact iht
  | case6 h t h' t' hne ihh => simpa [dorTip, hne] using ihh

theorem dorTip_agree_iff (a b : Noun) : dorTip a b = Nockchain.dorTip a b ↔
    a = b ∨ firstDifference a b = .cellAtom := by
  rw [dorTip_eq_dor, dorTip_eq_dorRs, Difference.dorRs_eq_dor, firstDifference_eq_same]

theorem dorTip_comparable_iff (a b : Noun) : (dorTip a b || dorTip b a) ↔
    firstDifference a b ≠ .atomCell ∧ firstDifference a b ≠ .cellAtom := by
  rw [dorTip_eq_dorRs, dorTip_eq_dorRs, firstDifference_swap a b, Difference.dorRs_or_swap]

/-! ### Orders by a hash -/

/-- The orders of `zoon.hoon` by a hash that may crash. -/
def hoonOrder (hash : Noun → Option Digest) (a b : Noun) : Option Bool := do
  let c ← hash a
  let d ← hash b
  return if c = d then Nockchain.dorTip a b else Nockchain.lthTip c d

theorem tipOrder_agree_iff {hash : Noun → Option Digest}
    (hbased : ∀ n d, hash n = some d → d.isBased) (a b : Noun) :
    tipOrder hash a b = hoonOrder hash a b ↔
      hash a = none ∨ hash a ≠ hash b ∨ a = b ∨ firstDifference a b = .cellAtom := by
  rw [← dorTip_agree_iff]
  cases ha : hash a with
  | none => simp [tipOrder, hoonOrder, ha]
  | some c =>
    cases hb : hash b with
    | none => simp [tipOrder, hoonOrder, ha, hb]
    | some d =>
      by_cases heq : c = d
      · simp [tipOrder, hoonOrder, ha, hb, heq]
      · simp [tipOrder, hoonOrder, ha, hb, heq, lthTip_eq (hbased a c ha) (hbased b d hb)]

/-! ### Where they are total -/

/-- A total order on a set. -/
structure TotalOn {α : Type} (S : Set α) (le : α → α → Prop) : Prop where
  total : ∀ a ∈ S, ∀ b ∈ S, le a b ∨ le b a
  antisymm : ∀ a ∈ S, ∀ b ∈ S, le a b → le b a → a = b
  trans : ∀ a ∈ S, ∀ b ∈ S, ∀ c ∈ S, le a b → le b c → le a c

theorem TotalOn.congr {α : Type} {S : Set α} {le le' : α → α → Prop}
    (h : ∀ a ∈ S, ∀ b ∈ S, le a b ↔ le' a b) (hle : TotalOn S le) : TotalOn S le' where
  total a ha b hb := by
    rw [← h a ha b hb, ← h b hb a ha]
    exact hle.total a ha b hb
  antisymm a ha b hb := by
    rw [← h a ha b hb, ← h b hb a ha]
    exact hle.antisymm a ha b hb
  trans a ha b hb c hc := by
    rw [← h a ha b hb, ← h b hb c hc, ← h a ha c hc]
    exact hle.trans a ha b hb c hc

/-- Two nouns do not first differ in an atom against a cell. -/
def Comparable (a b : Noun) : Prop :=
  firstDifference a b ≠ .atomCell ∧ firstDifference a b ≠ .cellAtom

theorem dorTip_antisymm {a b : Noun} (hab : dorTip a b) (hba : dorTip b a) : a = b := by
  rw [dorTip_eq_dorRs] at hab hba
  rw [firstDifference_swap a b] at hba
  rw [← firstDifference_eq_same]
  cases hdiff : firstDifference a b with
  | same => rfl
  | atoms x y ne =>
    simp only [hdiff, Difference.dorRs, Difference.swap, decide_eq_true_eq] at hab hba
    omega
  | atomCell | cellAtom => simp [hdiff, Difference.dorRs] at hab

theorem dorTip_atom (a b : Nat) : dorTip (.atom a) (.atom b) ↔ b ≤ a := by
  rw [dorTip]
  split
  · rename_i heq
    simp [heq]
  · simp [lth_eq_no]

theorem dorTip_cell (h t h' t' : Noun) :
    dorTip (.cell h t) (.cell h' t') = if h = h' then dorTip t t' else dorTip h h' := by
  simp only [dorTip_eq_dorRs, firstDifference]
  split <;> rfl

theorem dorTip_trans {a b c : Noun} (hab : dorTip a b) (hbc : dorTip b c) : dorTip a c := by
  refine trans_of_cells (fun _ _ => dorTip_antisymm) dorTip_cell ?_ hab hbc
  rintro (a | _) (b | _) (c | _) hcell hab hbc
  · rw [dorTip_atom] at *
    omega
  all_goals simp_all [dorTip]

/-- `dor_tip` is a total order on the sets whose nouns are comparable. -/
theorem totalOn_dorTip_iff (S : Set Noun) :
    TotalOn S (fun a b => dorTip a b) ↔ ∀ a ∈ S, ∀ b ∈ S, Comparable a b := by
  constructor
  · intro h a ha b hb
    rw [Comparable, ← dorTip_comparable_iff, Bool.or_eq_true]
    exact h.total a ha b hb
  · intro h
    refine ⟨fun a ha b hb => ?_, fun a _ b _ => dorTip_antisymm, fun a _ b _ c _ => dorTip_trans⟩
    rw [← Bool.or_eq_true, dorTip_comparable_iff]
    exact h a ha b hb

/-- A lexicographic order is total exactly if its second part compares what the first does not. -/
theorem totalOn_lex_iff {α : Type} {S : Set α} {f : α → Nat} {r : α → α → Prop}
    (hantisymm : ∀ a b, r a b → r b a → a = b) (htrans : ∀ a b c, r a b → r b c → r a c) :
    TotalOn S (fun a b => f a < f b ∨ f a = f b ∧ r a b) ↔
      ∀ a ∈ S, ∀ b ∈ S, f a = f b → r a b ∨ r b a := by
  constructor
  · intro h a ha b hb heq
    rcases h.total a ha b hb with (hlt | ⟨-, hr⟩) | (hlt | ⟨-, hr⟩)
    · omega
    · exact .inl hr
    · omega
    · exact .inr hr
  · intro h
    refine ⟨fun a ha b hb => ?_, ?_, ?_⟩
    · rcases lt_trichotomy (f a) (f b) with hlt | heq | hlt
      · exact .inl (.inl hlt)
      · rcases h a ha b hb heq with hr | hr
        · exact .inl (.inr ⟨heq, hr⟩)
        · exact .inr (.inr ⟨heq.symm, hr⟩)
      · exact .inr (.inl hlt)
    · rintro a - b - (hab | ⟨heq, hab⟩) (hba | ⟨heq', hba⟩)
      · omega
      · omega
      · omega
      · exact hantisymm a b hab hba
    · rintro a - b - c - (hab | ⟨heq, hab⟩) (hbc | ⟨heq', hbc⟩)
      · exact .inl (hab.trans hbc)
      · exact .inl (heq' ▸ hab)
      · exact .inl (heq ▸ hbc)
      · exact .inr ⟨heq.trans heq', htrans a b c hab hbc⟩

/-- An order by a hash is total on a set exactly if its nouns of one hash are comparable. -/
theorem totalOn_tipOrder_iff {hash : Noun → Option Digest}
    (hbased : ∀ n d, hash n = some d → d.isBased) {S : Set Noun}
    (hS : ∀ a ∈ S, hash a ≠ none) : TotalOn S (fun a b => tipOrder hash a b = some true) ↔
      ∀ a ∈ S, ∀ b ∈ S, hash a = hash b → Comparable a b := by
  let f (a : Noun) : Nat := ((hash a).getD default).toAtom
  have hf : ∀ a ∈ S, ∀ b ∈ S, f a = f b ↔ hash a = hash b := by
    intro a ha b hb
    obtain ⟨c, hc⟩ := Option.ne_none_iff_exists'.1 (hS a ha)
    obtain ⟨d, hd⟩ := Option.ne_none_iff_exists'.1 (hS b hb)
    simp only [f, hc, hd, Option.getD_some, Option.some.injEq]
    exact ⟨eq_of_toAtom_eq (hbased a c hc) (hbased b d hd), congrArg Digest.toAtom⟩
  -- On the set the order is lexicographic in the atom of the hash and `dor_tip`.
  have hlex : ∀ a ∈ S, ∀ b ∈ S,
      tipOrder hash a b = some true ↔ f a < f b ∨ f a = f b ∧ dorTip a b := by
    intro a ha b hb
    obtain ⟨c, hc⟩ := Option.ne_none_iff_exists'.1 (hS a ha)
    obtain ⟨d, hd⟩ := Option.ne_none_iff_exists'.1 (hS b hb)
    rw [hf a ha b hb]
    by_cases heq : c = d
    · simp [tipOrder, f, hc, hd, heq]
    · simp [tipOrder, f, hc, hd, heq, lthTip_eq (hbased a c hc) (hbased b d hd),
        Nockchain.lthTip]
  have hcongr : TotalOn S (fun a b => tipOrder hash a b = some true) ↔
      TotalOn S (fun a b => f a < f b ∨ f a = f b ∧ dorTip a b) :=
    ⟨.congr hlex, .congr fun a ha b hb => (hlex a ha b hb).symm⟩
  rw [hcongr, totalOn_lex_iff (fun _ _ => dorTip_antisymm) fun _ _ _ => dorTip_trans]
  refine forall₂_congr fun a ha => forall₂_congr fun b hb => ?_
  rw [hf a ha b hb, ← Bool.or_eq_true, dorTip_comparable_iff]
  rfl

/-- Where the orders of `common.rs` are those of `zoon.hoon`, and on which sets of nouns that the
hash accepts they are total. -/
theorem orders_agree_iff (hasher : TipHasher) :
    (∀ a b, dorTip a b = Nockchain.dorTip a b ↔ a = b ∨ firstDifference a b = .cellAtom) ∧
    (∀ a b, gorTip hasher a b = hoonOrder (tip hasher) a b ↔ tip hasher a = none ∨
      tip hasher a ≠ tip hasher b ∨ a = b ∨ firstDifference a b = .cellAtom) ∧
    (∀ a b, morTip hasher a b = hoonOrder (doubleTip hasher) a b ↔ doubleTip hasher a = none ∨
      doubleTip hasher a ≠ doubleTip hasher b ∨ a = b ∨ firstDifference a b = .cellAtom) ∧
    (∀ S : Set Noun, TotalOn S (fun a b => dorTip a b = true) ↔ ∀ a ∈ S, ∀ b ∈ S, Comparable a b) ∧
    ∀ S : Set Noun, (∀ a ∈ S, tip hasher a ≠ none) →
      (TotalOn S (fun a b => gorTip hasher a b = some true) ↔
        ∀ a ∈ S, ∀ b ∈ S, tip hasher a = tip hasher b → Comparable a b) := by
  have hdouble : ∀ n d, doubleTip hasher n = some d → d.isBased = true := by
    intro n d h
    obtain ⟨hash, -, h⟩ := Option.bind_eq_some_iff.1 h
    exact hasher.isBased_hashTenCell hash hash d h
  exact ⟨dorTip_agree_iff, tipOrder_agree_iff hasher.isBased_hashNounVarlen,
    tipOrder_agree_iff hdouble, totalOn_dorTip_iff,
    fun S => totalOn_tipOrder_iff hasher.isBased_hashNounVarlen⟩

/-- A hash with one digest for all nouns. -/
def constantHasher : TipHasher where
  hashNounVarlen _ := some default
  hashTenCell _ _ := some default
  isBased_hashNounVarlen _ d h := by
    cases h
    rfl
  isBased_hashTenCell _ _ d h := by
    cases h
    rfl

/-- Two atoms come out the wrong way round, and an atom and a cell do not compare. -/
theorem orders_disagree : dorTip (.atom 0) (.atom 1) = false ∧
    Nockchain.dorTip (.atom 0) (.atom 1) = true ∧
    dorTip (.atom 0) (.cell (.atom 0) (.atom 0)) = false ∧
    dorTip (.cell (.atom 0) (.atom 0)) (.atom 0) = false ∧
    Nockchain.dorTip (.atom 0) (.cell (.atom 0) (.atom 0)) = true ∧
    gorTip constantHasher (.atom 0) (.atom 1) = some false ∧
    hoonOrder (tip constantHasher) (.atom 0) (.atom 1) = some true ∧
    morTip constantHasher (.atom 0) (.atom 1) = some false ∧
    hoonOrder (doubleTip constantHasher) (.atom 0) (.atom 1) = some true := by
  decide +kernel

end Nockchain.Math
