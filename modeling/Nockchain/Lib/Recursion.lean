import Mathlib

/-!
# `Nockchain.Lib.Recursion`: partial recursive definitions

A recursive definition that need not terminate, kept as data. `Prog ι ρ ε` is
one unfolding of it: a tree that either returns a result, fails, or calls the
definition again at an argument and continues with the answer. A recursive
definition is then a `body : ι → Prog ι ρ ε`, one unfolding per argument.

Two meanings are given and proved to agree:

* `Evals body p o`: the big-step relation, by induction on the derivation;
* `fuelled body n i`: the evaluator that unfolds at most `n` deep.

`evals_body_iff` is the agreement, `Evals.unique` says the outcome is
unique, and `Reaches` is the set of calls an evaluation makes, which is how a
side condition on "everything that gets evaluated" is stated.
-/

set_option autoImplicit false

namespace Nockchain.Lib

universe u v w

/-- One unfolding of a recursive definition with arguments `ι`, results `ρ`
and failures `ε`. -/
inductive Prog (ι : Type u) (ρ : Type v) (ε : Type w) where
  | pure (r : ρ)
  | fail (e : ε)
  | call (i : ι) (k : ρ → Prog ι ρ ε)

variable {ι : Type u} {ρ : Type v} {ε : Type w}

/-- Return the result there is, or fail. -/
def Prog.ofOption (e : ε) : Option ρ → Prog ι ρ ε
  | some r => .pure r
  | none => .fail e

/-- Big-step evaluation of one unfolding. A failing call fails the caller. -/
inductive Evals (body : ι → Prog ι ρ ε) : Prog ι ρ ε → Except ε ρ → Prop where
  | pure (r : ρ) : Evals body (.pure r) (.ok r)
  | fail (e : ε) : Evals body (.fail e) (.error e)
  | callOk {i : ι} {k : ρ → Prog ι ρ ε} {r : ρ} {o : Except ε ρ} :
      Evals body (body i) (.ok r) → Evals body (k r) o → Evals body (.call i k) o
  | callError {i : ι} {k : ρ → Prog ι ρ ε} {e : ε} :
      Evals body (body i) (.error e) → Evals body (.call i k) (.error e)

/-- Continue with an answer; a missing answer and a failure stay as they are. -/
def andThen (o : Option (Except ε ρ)) (k : ρ → Option (Except ε ρ)) : Option (Except ε ρ) :=
  match o with
  | none => none
  | some (.error e) => some (.error e)
  | some (.ok r) => k r

/-- Run one unfolding, answering its calls with `recur`; `none` is an answer
that `recur` does not have. -/
def Prog.exec (recur : ι → Option (Except ε ρ)) : Prog ι ρ ε → Option (Except ε ρ)
  | .pure r => some (.ok r)
  | .fail e => some (.error e)
  | .call i k => andThen (recur i) fun r => (k r).exec recur

/-- Evaluate with at most `n` nested unfoldings. -/
def fuelled (body : ι → Prog ι ρ ε) : Nat → ι → Option (Except ε ρ)
  | 0, _ => none
  | n + 1, i => (body i).exec (fuelled body n)

/-! ### The fuelled evaluator and the big-step relation agree -/

variable {o : Except ε ρ}

/-- More answers keep the answers there were. -/
theorem exec_mono {f g : ι → Option (Except ε ρ)}
    (hfg : ∀ i o, f i = some o → g i = some o) (p : Prog ι ρ ε)
    (h : p.exec f = some o) : p.exec g = some o := by
  induction p with
  | pure r | fail e => exact h
  | call i k ih =>
    simp only [Prog.exec, andThen] at h ⊢
    cases hi : f i with
    | none => rw [hi] at h; cases h
    | some a =>
      rw [hi] at h
      rw [hfg i a hi]
      cases a with
      | error e => exact h
      | ok r => exact ih r h

variable {body : ι → Prog ι ρ ε} {i : ι}

/-- One more unit of fuel keeps an outcome. -/
theorem fuelled_succ {n : Nat}
    (h : fuelled body n i = some o) : fuelled body (n + 1) i = some o := by
  induction n generalizing i o with
  | zero => cases h
  | succ n ih => exact exec_mono (fun j a hj => ih hj) (body i) h

/-- Any larger amount of fuel keeps an outcome. -/
theorem fuelled_mono {n m : Nat} (hnm : n ≤ m)
    (h : fuelled body n i = some o) : fuelled body m i = some o := by
  induction hnm with
  | refl => exact h
  | step _ ih => exact fuelled_succ ih

variable {f : ι → Option (Except ε ρ)}

/-- What an unfolding computes from sound answers is derivable. -/
theorem exec_sound (hf : ∀ i o, f i = some o → Evals body (body i) o) (p : Prog ι ρ ε)
    (h : p.exec f = some o) : Evals body p o := by
  induction p with
  | pure r => cases h; exact .pure r
  | fail e => cases h; exact .fail e
  | call i k ih =>
    simp only [Prog.exec, andThen] at h
    cases hi : f i with
    | none => rw [hi] at h; cases h
    | some a =>
      rw [hi] at h
      cases a with
      | error e => cases h; exact .callError (hf i _ hi)
      | ok r => exact .callOk (hf i _ hi) (ih r h)

/-- A fuelled outcome is derivable. -/
theorem fuelled_sound {n : Nat} (h : fuelled body n i = some o) : Evals body (body i) o := by
  induction n generalizing i o with
  | zero => cases h
  | succ n ih => exact exec_sound (fun j a hj => ih hj) (body i) h

variable {p : Prog ι ρ ε}

/-- A derivable outcome is found with enough fuel. The two premises of a call
may need different amounts; the larger serves both. -/
theorem exec_complete (h : Evals body p o) : ∃ n, p.exec (fuelled body n) = some o := by
  induction h with
  | pure r | fail e => exact ⟨0, rfl⟩
  | @callOk i k r o _ _ ihi ihk =>
    obtain ⟨n, hn⟩ := ihi
    obtain ⟨m, hm⟩ := ihk
    refine ⟨max (n + 1) m, ?_⟩
    have hi : fuelled body (max (n + 1) m) i = some (.ok r) :=
      fuelled_mono (Nat.le_max_left _ _) (show fuelled body (n + 1) i = _ from hn)
    simp only [Prog.exec, andThen, hi]
    exact exec_mono (fun j a hj => fuelled_mono (Nat.le_max_right _ _) hj) (k r) hm
  | @callError i k e _ ihi =>
    obtain ⟨n, hn⟩ := ihi
    refine ⟨n + 1, ?_⟩
    simp [Prog.exec, andThen, show fuelled body (n + 1) i = _ from hn]

/-- The two meanings agree. -/
theorem evals_body_iff : Evals body (body i) o ↔ ∃ n, fuelled body n i = some o := by
  constructor
  · intro h
    obtain ⟨n, hn⟩ := exec_complete h
    exact ⟨n + 1, hn⟩
  · rintro ⟨n, hn⟩
    exact fuelled_sound hn

/-- An evaluation has at most one outcome. -/
theorem Evals.unique {o o' : Except ε ρ} (h : Evals body p o) (h' : Evals body p o') : o = o' := by
  obtain ⟨n, hn⟩ := exec_complete h
  obtain ⟨m, hm⟩ := exec_complete h'
  have hn' := exec_mono (fun _ _ hj => fuelled_mono (Nat.le_max_left n m) hj) p hn
  have hm' := exec_mono (fun _ _ hj => fuelled_mono (Nat.le_max_right n m) hj) p hm
  rw [hn'] at hm'
  exact Option.some.inj hm'

/-! ### The outcome of an evaluation -/

open Classical in
/-- The outcome at an argument, if there is one. -/
noncomputable def outcome (body : ι → Prog ι ρ ε) (i : ι) : Option (Except ε ρ) :=
  if h : ∃ o, Evals body (body i) o then some h.choose else none

theorem outcome_eq_some : outcome body i = some o ↔ Evals body (body i) o := by
  unfold outcome
  constructor
  · intro h
    split at h
    case isTrue hex =>
      cases h
      exact hex.choose_spec
    case isFalse => cases h
  · intro h
    have hex : ∃ o, Evals body (body i) o := ⟨o, h⟩
    rw [dif_pos hex, hex.choose_spec.unique h]

/-- With all the answers there are, an unfolding finds its outcome. -/
theorem exec_of_evals (hf : ∀ i o, Evals body (body i) o → f i = some o)
    (h : Evals body p o) : p.exec f = some o := by
  induction h with
  | pure r | fail e => rfl
  | callOk hi _ _ ihk => simp [Prog.exec, andThen, hf _ _ hi, ihk]
  | callError hi _ => simp [Prog.exec, andThen, hf _ _ hi]

/-- The outcomes are a fixed point of the unfolding. -/
theorem outcome_eq_exec (body : ι → Prog ι ρ ε) (i : ι) :
    outcome body i = (body i).exec (outcome body) := by
  apply Option.ext
  intro o
  rw [outcome_eq_some]
  constructor
  · exact exec_of_evals fun _ _ h => outcome_eq_some.2 h
  · exact exec_sound (fun _ _ h => outcome_eq_some.1 h) (body i)

/-! ### The calls an evaluation makes -/

/-- `Asks body p j`: running the unfolding `p` reaches the call at `j`. -/
inductive Asks (body : ι → Prog ι ρ ε) : Prog ι ρ ε → ι → Prop where
  | here (j : ι) (k : ρ → Prog ι ρ ε) : Asks body (.call j k) j
  | later {i j : ι} {k : ρ → Prog ι ρ ε} {r : ρ} :
      Evals body (body i) (.ok r) → Asks body (k r) j → Asks body (.call i k) j

/-- `Reaches body i j`: evaluating at `i` evaluates at `j` on the way, `i`
itself included. -/
def Reaches (body : ι → Prog ι ρ ε) : ι → ι → Prop :=
  Relation.ReflTransGen fun i j => Asks body (body i) j

/-- Every call `p` makes, directly or further down, satisfies `good`. -/
def Covered (body : ι → Prog ι ρ ε) (good : ι → Prop) (p : Prog ι ρ ε) : Prop :=
  ∀ i j, Asks body p i → Reaches body i j → good j

variable {good : ι → Prop}

/-- Covering an argument covers it and its unfolding. -/
theorem covered_body (h : ∀ j, Reaches body i j → good j) : Covered body good (body i) :=
  fun _ j hask hreach => h j (Relation.ReflTransGen.head hask hreach)

/-- The first call of a covered unfolding is covered. -/
theorem Covered.call {k : ρ → Prog ι ρ ε} (h : Covered body good (.call i k)) :
    ∀ j, Reaches body i j → good j :=
  fun j hreach => h i j (.here i k) hreach

/-- After an answered call, the rest of a covered unfolding is covered. -/
theorem Covered.rest {k : ρ → Prog ι ρ ε} (h : Covered body good (.call i k)) {r : ρ}
    (hr : Evals body (body i) (.ok r)) : Covered body good (k r) :=
  fun i' j hask hreach => h i' j (.later hr hask) hreach

/-- A set of arguments that contains `i` and is closed under calls covers
everything `i` reaches. -/
theorem Reaches.closed (P : ι → Prop) {i j : ι}
    (hi : P i) (hclosed : ∀ i j, P i → Asks body (body i) j → P j)
    (h : Reaches body i j) : P j := by
  induction h with
  | refl => exact hi
  | tail _ hask ih => exact hclosed _ _ ih hask

end Nockchain.Lib
