import Mathlib

/-!
# `Nockchain.Lib.Fold`: runs of a step over a list

A fold with a gate that can fail is a run of the relation between the
accumulators before and after each element. What one step keeps or adds, the
run keeps or adds up, whatever the monad of the gate is.
-/

set_option autoImplicit false

namespace Nockchain.Lib

open List

variable {α β : Type} {l : List α}

/-! ### Inverting a `do` block -/

theorem bind_eq_some {x : Option α} {f : α → Option β} {b : β} :
    x >>= f = some b ↔ ∃ a, x = some a ∧ f a = some b :=
  Option.bind_eq_some_iff

theorem pure_eq_some {a b : α} : (pure a : Option α) = some b ↔ a = b := Option.some_inj

/-! ### Sums -/

/-- A fold that adds up weights, in either order, is their sum. -/
theorem foldl_add_eq_sum (f : α → Nat) (l : List α) (n : Nat) :
    l.foldl (fun acc x => acc + f x) n = n + (l.map f).sum := by
  induction l generalizing n with
  | nil => rfl
  | cons x l ih =>
    rw [foldl_cons, ih, map_cons, sum_cons, Nat.add_assoc]

theorem foldl_add_eq_sum' (f : α → Nat) (l : List α) (n : Nat) :
    l.foldl (fun acc x => f x + acc) n = n + (l.map f).sum := by
  simpa [Nat.add_comm] using foldl_add_eq_sum f l n

/-- A fold that adds up weights which may be missing. -/
theorem foldlM_add_eq_some (g : α → Option Nat) (l : List α) (n r : Nat) :
    l.foldlM (fun sum x => do return sum + (← g x)) n = some r ↔
      (∀ x ∈ l, (g x).isSome) ∧ r = n + (l.map fun x => (g x).getD 0).sum := by
  induction l generalizing n with
  | nil =>
    rw [foldlM_nil, Option.pure_def, eq_comm]
    simp
  | cons x l ih =>
    rw [foldlM_cons, forall_mem_cons, map_cons]
    cases hx : g x with
    | none => simp
    | some w =>
      show l.foldlM _ (n + w) = some r ↔ _
      rw [ih]
      simp [Nat.add_assoc]

/-- The same of a test that may crash. -/
theorem forall_of_foldlM_and {p : α → Option Bool} {b : Bool}
    (h : l.foldlM (fun b x => if b then p x else some false) b = some true) :
    b ∧ ∀ x ∈ l, p x = some true := by
  induction l generalizing b with
  | nil => simpa using h
  | cons x l ih =>
    obtain ⟨c, hc, h⟩ := Option.bind_eq_some_iff.1 h
    obtain ⟨rfl, hall⟩ := ih h
    cases b with
    | false => cases hc
    | true => exact ⟨rfl, forall_mem_cons.2 ⟨hc, hall⟩⟩

/-- A fold whose step adds to a property what an element brings. -/
theorem foldl_collect {P : β → Prop} {q : α → Prop} {f : β → α → β}
    (hstep : ∀ b x, P (f b x) ↔ P b ∨ q x) (l : List α) (b : β) :
    P (l.foldl f b) ↔ P b ∨ ∃ x ∈ l, q x := by
  induction l generalizing b with
  | nil => simp
  | cons x l ih => rw [foldl_cons, ih, hstep, exists_mem_cons_iff, or_assoc]

variable {γ : Type}

/-- A fold that lists what becomes of the elements with a test. -/
theorem foldl_filter_map (p : α → Bool) (g : α → γ) (l : List α) (ys : List γ) :
    l.foldl (fun ys x => if p x then g x :: ys else ys) ys
      = ((l.filter p).map g).reverse ++ ys := by
  induction l generalizing ys with
  | nil => rfl
  | cons x l ih =>
    rw [foldl_cons, ih, filter_cons]
    split <;> simp

/-- A fold that collects the elements with a test. -/
theorem foldl_filter (p : α → Bool) (l ys : List α) :
    l.foldl (fun ys x => if p x then x :: ys else ys) ys = (l.filter p).reverse ++ ys := by
  simpa using foldl_filter_map p id l ys

theorem exists_mapM {f : α → Option γ} (h : ∀ x ∈ l, ∃ y, f x = some y) :
    ∃ ys, l.mapM f = some ys ∧ ys.length = l.length := by
  induction l with
  | nil => exact ⟨[], rfl, rfl⟩
  | cons x l ih =>
    obtain ⟨⟨y, hy⟩, hl⟩ := forall_mem_cons.1 h
    obtain ⟨ys, hys, hlength⟩ := ih hl
    exact ⟨y :: ys, by simp [mapM_cons, hy, hys], by simp [hlength]⟩

theorem mapM_congr {f g : α → Option γ} (h : ∀ x ∈ l, f x = g x) :
    l.mapM f = l.mapM g := by
  induction l with
  | nil => rfl
  | cons x l ih =>
    obtain ⟨hx, hl⟩ := forall_mem_cons.1 h
    rw [mapM_cons, mapM_cons, hx, ih hl]

/-- `Run step b l b'`: taking the elements of `l` in order, `step` leads from `b` to `b'`. -/
inductive Run (step : β → α → β → Prop) : β → List α → β → Prop where
  | nil (b : β) : Run step b [] b
  | cons {b c b' : β} {x : α} {l : List α} (h : step b x c) (t : Run step c l b') :
      Run step b (x :: l) b'

namespace Run

variable {step : β → α → β → Prop} {b b' : β}

/-- A fold in the option monad that returns is a run. -/
theorem of_foldlM {f : β → α → Option β} (h : l.foldlM f b = some b') :
    Run (fun b x b' => f b x = some b') b l b' := by
  induction l generalizing b with
  | nil =>
    cases h
    exact .nil _
  | cons x l ih =>
    obtain ⟨c, hc, h⟩ := Option.bind_eq_some_iff.1 h
    exact .cons hc (ih h)

/-- A fold in the option monad returns if each step does, from what the steps before it leave for
the elements still to come. -/
theorem exists_foldlM {f : β → α → Option β} {I : List α → β → Prop}
    (hstep : ∀ x l b, I (x :: l) b → ∃ b', f b x = some b' ∧ I l b') (h : I l b) :
    ∃ b', l.foldlM f b = some b' ∧ I [] b' := by
  induction l generalizing b with
  | nil => exact ⟨b, rfl, h⟩
  | cons x l ih =>
    obtain ⟨c, hc, hl⟩ := hstep x l b h
    obtain ⟨b', hb', hend⟩ := ih hl
    exact ⟨b', by rw [foldlM_cons, hc]; exact hb', hend⟩

/-- A run through the images of the accumulators and of the elements. -/
theorem map {β' γ : Type} {step' : β' → γ → β' → Prop} (m : β → β') (g : α → γ)
    (hstep : ∀ b x b', step b x b' → step' (m b) (g x) (m b')) (h : Run step b l b') :
    Run step' (m b) (l.map g) (m b') := by
  induction h with
  | nil b => exact .nil _
  | cons hx _ ih => exact .cons (hstep _ _ _ hx) ih

/-- Every element of the list has been taken by a step. -/
theorem exists_step (h : Run step b l b') {x : α} (hx : x ∈ l) : ∃ c c', step c x c' := by
  induction h with
  | nil b => cases hx
  | cons hy _ ih =>
    rcases mem_cons.1 hx with rfl | hx
    · exact ⟨_, _, hy⟩
    · exact ih hx

/-- A run is followed from an accumulator that each step keeps related. -/
theorem simulate (h : Run step b l b') (Q : β → β → Prop)
    (hstep : ∀ b x b' c, x ∈ l → step b x b' → Q b c → ∃ c', step c x c' ∧ Q b' c') {c : β}
    (hc : Q b c) : ∃ c', Run step c l c' ∧ Q b' c' := by
  induction h generalizing c with
  | nil b => exact ⟨c, .nil c, hc⟩
  | cons hx _ ih =>
    obtain ⟨d, hd, hd'⟩ := hstep _ _ _ c (.head _) hx hc
    obtain ⟨c', hrun, hc'⟩ := ih (fun b x b' c hm => hstep b x b' c (.tail _ hm)) hd'
    exact ⟨c', .cons hd hrun, hc'⟩

/-- A property that every step keeps holds after the run. -/
theorem invariant (h : Run step b l b') (P : β → Prop)
    (hstep : ∀ b x b', x ∈ l → step b x b' → P b → P b') (hb : P b) : P b' := by
  induction h with
  | nil b => exact hb
  | cons hx _ ih =>
    have hc := hstep _ _ _ (.head _) hx hb
    exact ih (fun b x b' hm => hstep b x b' (.tail _ hm)) hc

/-- A property of the elements taken so far that every step keeps holds of all of them. -/
theorem collects (h : Run step b l b') (P : List α → β → Prop)
    (hstep : ∀ done b x b', step b x b' → P done b → P (done ++ [x]) b') {done : List α}
    (hb : P done b) : P (done ++ l) b' := by
  induction h generalizing done with
  | nil b => rwa [append_nil]
  | @cons b c b' x l hx _ ih =>
    rw [append_cons]
    exact ih (hstep done _ _ _ hx hb)

theorem mono {step' : β → α → β → Prop} (h : Run step b l b')
    (hstep : ∀ b x b', step b x b' → step' b x b') : Run step' b l b' := by
  simpa using h.map id id hstep

theorem append {c : β} {l' : List α} (h : Run step b l c) (h' : Run step c l' b') :
    Run step b (l ++ l') b' := by
  induction h with
  | nil b => exact h'
  | cons hx _ ih => exact .cons hx (ih h')

/-- A run and one more step. -/
theorem concat (h : Run step b l b') {x : α} {c : β} (hx : step b' x c) :
    Run step b (l ++ [x]) c :=
  h.append (.cons hx (.nil c))

/-- Runs in a row, one for each element, are a run. -/
theorem flatMap {γ : Type} {g : γ → List α} {l : List γ}
    (h : Run (fun b x b' => Run step b (g x) b') b l b') : Run step b (l.flatMap g) b' := by
  induction h with
  | nil b => exact .nil b
  | cons hx _ ih => exact hx.append ih

/-- Where every step takes `loss x` from a measure and adds `gain x`, the run takes the sum of the
losses and adds the sum of the gains. -/
theorem measure (h : Run step b l b') (m : β → Nat) (loss gain : α → Nat)
    (hstep : ∀ b x b', x ∈ l → step b x b' → m b' + loss x = m b + gain x) :
    m b' + (l.map loss).sum = m b + (l.map gain).sum := by
  induction h with
  | nil b => rfl
  | cons hx _ ih =>
    have hc := hstep _ _ _ (.head _) hx
    have ht := ih fun b x b' hm => hstep b x b' (.tail _ hm)
    rw [map_cons, map_cons, sum_cons, sum_cons]
    omega

/-- Where every step adds `gain x` to a measure, the run adds the sum of the gains. -/
theorem gains (h : Run step b l b') (m : β → Nat) (gain : α → Nat)
    (hstep : ∀ b x b', x ∈ l → step b x b' → m b' = m b + gain x) :
    m b' = m b + (l.map gain).sum := by
  have hrun := h.measure m (fun _ => 0) gain hstep
  simpa using hrun

/-- The same, where a step adds its gain only under a property that it keeps. -/
theorem gains_of_invariant (h : Run step b l b') (P : β → Prop) (m : β → Nat) (gain : α → Nat)
    (hstep : ∀ b x b', x ∈ l → step b x b' → P b → m b' = m b + gain x ∧ P b') (hb : P b) :
    m b' = m b + (l.map gain).sum ∧ P b' := by
  induction h with
  | nil b => exact ⟨rfl, hb⟩
  | cons hx _ ih =>
    have hc := hstep _ _ _ (.head _) hx hb
    have ht := ih (fun b x b' hm => hstep b x b' (.tail _ hm)) hc.2
    refine ⟨?_, ht.2⟩
    rw [map_cons, sum_cons, ht.1, hc.1, Nat.add_assoc]

end Run

/-- A test of all elements in the option monad. -/
theorem allM_eq_some_true {p : α → Option Bool} :
    l.allM p = some true ↔ ∀ x ∈ l, p x = some true := by
  induction l with
  | nil => simp [allM]
  | cons x l ih =>
    rw [allM, forall_mem_cons, ← ih]
    cases p x with
    | none => simp
    | some c => cases c <;> simp

variable {l' : List β}

section Search

variable {f : α → Option Bool} {P : α → Prop}

/-- A search with a test that never fails and decides `P`. -/
theorem exists_anyM (h : ∀ x ∈ l, ∃ b, f x = some b ∧ (b ↔ P x)) :
    ∃ b, l.anyM f = some b ∧ (b ↔ ∃ x ∈ l, P x) := by
  induction l with
  | nil => exact ⟨false, rfl, by simp⟩
  | cons x l ih =>
    rw [forall_mem_cons] at h
    obtain ⟨b, hb, hiff⟩ := h.1
    obtain ⟨b', hb', hiff'⟩ := ih h.2
    cases b with
    | true => exact ⟨true, by simp [anyM, hb], by simp [hiff.1 rfl]⟩
    | false =>
      refine ⟨b', by simpa [anyM, hb] using hb', ?_⟩
      have hnot : ¬ P x := fun hP => Bool.false_ne_true (hiff.2 hP)
      rw [hiff']
      simp [hnot]

/-- The same for the search that returns what it finds. -/
theorem exists_findM? (h : ∀ x ∈ l, ∃ b, f x = some b ∧ (b ↔ P x)) :
    ∃ r, l.findM? f = some r ∧ (r.isSome ↔ ∃ x ∈ l, P x) ∧ ∀ x ∈ r, x ∈ l ∧ P x := by
  induction l with
  | nil => exact ⟨none, rfl, by simp, by simp⟩
  | cons x l ih =>
    rw [forall_mem_cons] at h
    obtain ⟨b, hb, hiff⟩ := h.1
    obtain ⟨r, hr, hsome, hmem⟩ := ih h.2
    cases b with
    | true => exact ⟨some x, by simp [findM?, hb], by simp [hiff.1 rfl], by simp [hiff.1 rfl]⟩
    | false =>
      have hnot : ¬ P x := fun hP => Bool.false_ne_true (hiff.2 hP)
      refine ⟨r, by simpa [findM?, hb] using hr, by simpa [hnot] using hsome, fun y hy => ?_⟩
      exact ⟨.tail _ (hmem y hy).1, (hmem y hy).2⟩

end Search

/-- The results of a map in the option monad, element by element. -/
theorem forall₂_of_mapM {f : α → Option β} (h : l.mapM f = some l') :
    List.Forall₂ (fun x y => f x = some y) l l' := by
  induction l generalizing l' with
  | nil =>
    cases h
    exact .nil
  | cons x l ih =>
    simp only [mapM_cons, bind_eq_some, pure_eq_some] at h
    obtain ⟨y, hy, ys, hys, rfl⟩ := h
    exact .cons hy (ih hys)

variable {R : α → β → Prop}

theorem exists_of_mem_forall₂ (h : List.Forall₂ R l l') {y : β} (hy : y ∈ l') : ∃ x ∈ l, R x y := by
  induction h with
  | nil => cases hy
  | @cons x y' l l' hxy _ ih =>
    rcases mem_cons.1 hy with rfl | hy
    · exact ⟨x, (.head _), hxy⟩
    · obtain ⟨x', hx', hxy'⟩ := ih hy
      exact ⟨x', .tail _ hx', hxy'⟩

/-- Results that determine their arguments are as distinct as these. -/
theorem nodup_map_of_forall₂ {g : β → γ} (h : List.Forall₂ R l l')
    (hinj : ∀ x y x' y', R x y → R x' y' → g y = g y' → x = x') (hnodup : l.Nodup) :
    (l'.map g).Nodup := by
  induction h with
  | nil => exact .nil
  | @cons x y l l' hxy hrest ih =>
    rw [nodup_cons] at hnodup
    rw [map_cons, nodup_cons]
    refine ⟨fun hmem => hnodup.1 ?_, ih hnodup.2⟩
    obtain ⟨y', hy', heq⟩ := mem_map.1 hmem
    obtain ⟨x', hx', hxy'⟩ := exists_of_mem_forall₂ hrest hy'
    exact hinj x y x' y' hxy hxy' heq.symm ▸ hx'

theorem forall₂_comp {S : β → γ → Prop} {T : α → γ → Prop}
    (hT : ∀ x y z, R x y → S y z → T x z) {m : List β} {n : List γ}
    (h : List.Forall₂ R l m) (h' : List.Forall₂ S m n) : List.Forall₂ T l n := by
  induction h generalizing n with
  | nil =>
    cases h'
    exact .nil
  | cons hx _ ih =>
    cases h' with
    | cons hy hrest => exact .cons (hT _ _ _ hx hy) (ih hrest)

/-- Related elements stand in their lists. -/
theorem forall₂_mem (h : List.Forall₂ R l l') :
    List.Forall₂ (fun x y => R x y ∧ x ∈ l ∧ y ∈ l') l l' := by
  induction h with
  | nil => exact .nil
  | cons hxy _ ih =>
    refine .cons ⟨hxy, (.head _), (.head _)⟩ (ih.imp ?_)
    intro x y hxy
    exact ⟨hxy.1, .tail _ hxy.2.1, .tail _ hxy.2.2⟩

theorem map_eq_of_forall₂ {f : α → γ} {g : β → γ}
    (h : List.Forall₂ R l l') (hR : ∀ x y, R x y → f x = g y) : l.map f = l'.map g := by
  induction h with
  | nil => rfl
  | cons hxy _ ih => rw [map_cons, map_cons, hR _ _ hxy, ih]

/-- Related lists with one image are equal where related elements with one image are. -/
theorem eq_of_forall₂_of_map_eq {R : α → α → Prop} {f : α → γ} {l l' : List α}
    (h : List.Forall₂ R l l') (hmap : l.map f = l'.map f)
    (hR : ∀ x y, R x y → f x = f y → x = y) : l = l' := by
  induction h with
  | nil => rfl
  | cons hxy _ ih =>
    rw [map_cons, map_cons, cons.injEq] at hmap
    rw [hR _ _ hxy hmap.1, ih hmap.2]

end Nockchain.Lib
