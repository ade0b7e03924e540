import Nockchain.Lib.Fold

/-!
# `Nockchain.Lib.Transfer`: steps that take keys out of a map and put others in

A `Transfer` consumes the keys `ins t` of a map and creates the keys `outs t`. It
reads the map at the first and needs the second to be free. Where nothing that
is created is consumed, a run of transfers is possible exactly if each of them
is possible at once and no two meet (`run_iff`), which does not depend on their
order (`run_perm`). A run that is possible in every order, and consumes only
what was there at its start, consumes nothing that it creates (`disjoint_of_perm`).
-/

set_option autoImplicit false

namespace Nockchain.Lib

open List Set

/-- The steps of a machine as transfers of a map, which `view` reads off its state, in the states
with `P`. -/
structure Transfer {σ τ K V : Type} (view : σ → K → Option V) (P : σ → Prop)
    (step : σ → τ → σ → Prop) (ins outs : τ → Set K) : Prop where
  keep {s t s'} : P s → step s t s' → P s'
  present {s t s' k} : P s → step s t s' → k ∈ ins t → k ∉ outs t → view s k ≠ none
  fresh {s t s' k} : P s → step s t s' → k ∈ outs t → view s k = none
  consumed {s t s' k} : P s → step s t s' → k ∈ ins t → view s' k = none
  created {s t s' k} : P s → step s t s' → k ∈ outs t → k ∉ ins t → view s' k ≠ none
  frame {s t s' k} : P s → step s t s' → k ∉ ins t → k ∉ outs t → view s' k = view s k
  congr {s t s' r} : P s → P r → step s t s' → (∀ k ∈ ins t, view r k = view s k) →
    (∀ k ∈ outs t, view r k = none) → ∃ r', step r t r'

namespace Transfer

variable {σ τ K V : Type} {view : σ → K → Option V} {P : σ → Prop} {step : σ → τ → σ → Prop}
  {ins outs : τ → Set K}

/-- Transfers that neither consume nor create a common key. -/
def Apart (ins outs : τ → Set K) (t t' : τ) : Prop :=
  Disjoint (ins t) (ins t') ∧ Disjoint (outs t) (outs t')

theorem Apart.symm {t t' : τ} (h : Apart ins outs t t') : Apart ins outs t' t :=
  ⟨Disjoint.symm h.1, Disjoint.symm h.2⟩

/-- No transfer of the list consumes what one of them creates. -/
def Separate (ins outs : τ → Set K) (l : List τ) : Prop :=
  ∀ t ∈ l, ∀ t' ∈ l, Disjoint (outs t) (ins t')

theorem Separate.perm {l l' : List τ} (h : Separate ins outs l) (hperm : l.Perm l') :
    Separate ins outs l' :=
  fun t ht t' ht' => h t (hperm.mem_iff.2 ht) t' (hperm.mem_iff.2 ht')

variable (m : Transfer view P step ins outs) {s s' : σ} {t t' : τ}
include m

/-- What a transfer can do after another, it can do before it. -/
theorem step_before {r : σ} (hs : P s) (h : step s t s') (h' : step s' t' r)
    (hself : Disjoint (outs t') (ins t')) (hout : Disjoint (outs t) (ins t'))
    (hin : Disjoint (outs t') (ins t)) : (∃ r, step s t' r) ∧ Apart ins outs t t' := by
  have hs' := m.keep hs h
  have hins : Disjoint (ins t) (ins t') := by
    refine disjoint_left.2 fun k hk hk' => ?_
    exact m.present hs' h' hk' (disjoint_right.1 hself hk') (m.consumed hs h hk)
  have houts : Disjoint (outs t) (outs t') := by
    refine disjoint_left.2 fun k hk hk' => ?_
    exact m.created hs h hk (disjoint_left.1 hin hk') (m.fresh hs' h' hk')
  refine ⟨m.congr hs' hs h' (fun k hk => ?_) fun k hk => ?_, hins, houts⟩
  · exact (m.frame hs h (disjoint_right.1 hins hk) (disjoint_right.1 hout hk)).symm
  · rw [← m.frame hs h (disjoint_left.1 hin hk) (disjoint_right.1 houts hk)]
    exact m.fresh hs' h' hk

/-- What a transfer can do, it can do after another that is apart from it. -/
theorem step_after {r : σ} (hs : P s) (h : step s t s') (h' : step s t' r)
    (hout : Disjoint (outs t) (ins t')) (hin : Disjoint (outs t') (ins t))
    (hapart : Apart ins outs t t') : ∃ r, step s' t' r := by
  refine m.congr hs (m.keep hs h) h' (fun k hk => ?_) fun k hk => ?_
  · exact m.frame hs h (disjoint_right.1 hapart.1 hk) (disjoint_right.1 hout hk)
  · rw [m.frame hs h (disjoint_left.1 hin hk) (disjoint_right.1 hapart.2 hk)]
    exact m.fresh hs h' hk

variable {l : List τ}

/-- Where nothing that is created is consumed, a run is possible exactly if every transfer is
possible at its start and no two of them meet. -/
theorem run_iff (hs : P s) (hdisj : Separate ins outs l) :
    (∃ s', Run step s l s') ↔ (∀ t ∈ l, ∃ r, step s t r) ∧ l.Pairwise (Apart ins outs) := by
  induction l generalizing s with
  | nil => exact ⟨fun _ => ⟨by simp, .nil⟩, fun _ => ⟨s, .nil s⟩⟩
  | cons t l ih =>
    have hl : Separate ins outs l := fun t' ht' t'' ht'' =>
      hdisj t' (.tail _ ht') t'' (.tail _ ht'')
    have hout : ∀ t' ∈ l, Disjoint (outs t) (ins t') := fun t' ht' =>
      hdisj t (.head _) t' (.tail _ ht')
    have hin : ∀ t' ∈ l, Disjoint (outs t') (ins t) := fun t' ht' =>
      hdisj t' (.tail _ ht') t (.head _)
    rw [forall_mem_cons, pairwise_cons]
    constructor
    · rintro ⟨s', hrun⟩
      cases hrun with
      | @cons _ c _ _ _ hstep hrest =>
        obtain ⟨hall, hpair⟩ := (ih (m.keep hs hstep) hl).1 ⟨s', hrest⟩
        have hbefore : ∀ t' ∈ l, (∃ r, step s t' r) ∧ Apart ins outs t t' := by
          intro t' ht'
          obtain ⟨r, hr⟩ := hall t' ht'
          exact m.step_before hs hstep hr (hl t' ht' t' ht') (hout t' ht') (hin t' ht')
        exact ⟨⟨⟨c, hstep⟩, fun t' ht' => (hbefore t' ht').1⟩,
          fun t' ht' => (hbefore t' ht').2, hpair⟩
    · rintro ⟨⟨⟨c, hstep⟩, hall⟩, hapart, hpair⟩
      have hafter : ∀ t' ∈ l, ∃ r, step c t' r := by
        intro t' ht'
        obtain ⟨r, hr⟩ := hall t' ht'
        exact m.step_after hs hstep hr (hout t' ht') (hin t' ht') (hapart t' ht')
      obtain ⟨s', hrest⟩ := (ih (m.keep hs hstep) hl).2 ⟨hafter, hpair⟩
      exact ⟨s', .cons hstep hrest⟩

/-- Such a run is possible in every order. -/
theorem run_perm {l' : List τ} (hs : P s)
    (hdisj : Separate ins outs l) (hperm : l.Perm l') (h : ∃ s', Run step s l s') :
    ∃ s', Run step s l' s' := by
  obtain ⟨hall, hpair⟩ := (m.run_iff hs hdisj).1 h
  refine (m.run_iff hs (hdisj.perm hperm)).2 ⟨fun t ht => hall t (hperm.mem_iff.2 ht), ?_⟩
  exact (hperm.pairwise_iff fun h => Apart.symm h).1 hpair

/-- What the map is after such a run, where a transfer creates the value `val t k` under a key. -/
theorem view_of_run {val : τ → K → Option V}
    (hval : ∀ {s t s' k}, P s → step s t s' → k ∈ outs t → k ∉ ins t → view s' k = val t k)
    (hs : P s) (hdisj : Separate ins outs l)
    (h : Run step s l s') (k : K) :
    (∀ t ∈ l, k ∈ ins t → view s' k = none) ∧ (∀ t ∈ l, k ∈ outs t → view s' k = val t k) ∧
      ((∀ t ∈ l, k ∉ ins t ∧ k ∉ outs t) → view s' k = view s k) := by
  have hpair := ((m.run_iff hs hdisj).1 ⟨s', h⟩).2
  induction h with
  | nil s => simp
  | @cons s c s' t l hstep _ ih =>
    rw [pairwise_cons] at hpair
    have hmem : ∀ {t'}, t' ∈ l → t' ∈ t :: l := fun ht' => .tail _ ht'
    obtain ⟨hins, houts, hframe⟩ := ih (m.keep hs hstep)
      (fun t' ht' t'' ht'' => hdisj t' (hmem ht') t'' (hmem ht'')) hpair.2
    -- a key of the first transfer is left alone by the others
    have hrest : k ∈ ins t ∨ k ∈ outs t → view s' k = view c k := by
      intro hk
      refine hframe fun t' ht' => ?_
      rcases hk with hk | hk
      · exact ⟨disjoint_left.1 (hpair.1 t' ht').1 hk,
          disjoint_right.1 (hdisj t' (hmem ht') t mem_cons_self) hk⟩
      · exact ⟨disjoint_left.1 (hdisj t (.head _) t' (hmem ht')) hk,
          disjoint_left.1 (hpair.1 t' ht').2 hk⟩
    refine ⟨fun t' ht' hk => ?_, fun t' ht' hk => ?_, fun hk => ?_⟩
    · rcases mem_cons.1 ht' with rfl | ht'
      · rw [hrest (.inl hk), m.consumed hs hstep hk]
      · exact hins t' ht' hk
    · rcases mem_cons.1 ht' with rfl | ht'
      · have hself := hdisj t' (.head _) t' (.head _)
        rw [hrest (.inr hk), hval hs hstep hk (disjoint_left.1 hself hk)]
      · exact houts t' ht' hk
    · obtain ⟨hin, hout⟩ := hk t (.head _)
      rw [hframe fun t' ht' => hk t' (hmem ht'), m.frame hs hstep hin hout]

/-- Such runs in two orders end with the same map. -/
theorem view_perm {val : τ → K → Option V}
    (hval : ∀ {s t s' k}, P s → step s t s' → k ∈ outs t → k ∉ ins t → view s' k = val t k)
    {l' : List τ} {r : σ} (hs : P s)
    (hdisj : Separate ins outs l) (hperm : l.Perm l')
    (h : Run step s l s') (h' : Run step s l' r) (k : K) : view r k = view s' k := by
  obtain ⟨hins, houts, hframe⟩ := m.view_of_run hval hs hdisj h k
  obtain ⟨hins', houts', hframe'⟩ := m.view_of_run hval hs (hdisj.perm hperm) h' k
  by_cases hin : ∃ t ∈ l, k ∈ ins t
  · obtain ⟨t, ht, hk⟩ := hin
    rw [hins t ht hk, hins' t (hperm.mem_iff.1 ht) hk]
  by_cases hout : ∃ t ∈ l, k ∈ outs t
  · obtain ⟨t, ht, hk⟩ := hout
    rw [houts t ht hk, houts' t (hperm.mem_iff.1 ht) hk]
  have hnone : ∀ t ∈ l, k ∉ ins t ∧ k ∉ outs t := fun t ht =>
    ⟨fun hk => hin ⟨t, ht, hk⟩, fun hk => hout ⟨t, ht, hk⟩⟩
  rw [hframe hnone, hframe' fun t ht => hnone t (hperm.mem_iff.2 ht)]

/-- It consumes only what was there at its start. -/
theorem present_of_run (hs : P s)
    (hdisj : Separate ins outs l) (h : ∃ s', Run step s l s')
    (ht : t ∈ l) {k : K} (hk : k ∈ ins t) : view s k ≠ none := by
  obtain ⟨r, hr⟩ := ((m.run_iff hs hdisj).1 h).1 t ht
  exact m.present hs hr hk (disjoint_right.1 (hdisj t ht t ht) hk)

/-- A run that consumes only what was there, and is possible in every order, consumes nothing that
it creates. -/
theorem disjoint_of_perm (hs : P s) (hpresent : ∀ t ∈ l, ∀ k ∈ ins t, view s k ≠ none)
    (hperm : ∀ l', l.Perm l' → ∃ s', Run step s l' s') :
    Separate ins outs l := by
  intro t ht t' ht'
  refine disjoint_left.2 fun k hk hk' => ?_
  -- In an order in which the transfer comes first, the key is free.
  obtain ⟨l1, l2, rfl⟩ := append_of_mem ht
  obtain ⟨s', hrun⟩ := hperm (t :: (l1 ++ l2)) perm_middle
  cases hrun with
  | cons hstep _ => exact hpresent t' ht' k hk' (m.fresh hs hstep hk)

end Transfer

end Nockchain.Lib
