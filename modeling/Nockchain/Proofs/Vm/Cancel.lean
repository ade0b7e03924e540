import Nockchain.Vm.Cancel

/-!
# `Nockchain.Proofs.Vm.Cancel`: the cancellation protocol

A load may be stale when its swap is tried, but a swap that succeeds does what it
would do on the word as it is, since the word then equals the value that was
loaded. So a step of the system either leaves the word and the number of open
calls alone, or opens a call, closes one, cancels, or bails (`Moves`).

* `counts_of_run` counts: in every run the magnitude of the word is the number of
  open calls, plus one for each call that bailed out.
* `run_of_neg` follows a run after a cancel: the word stays negative, and no call
  starts, until all open calls have left.
* `cancellation_protocol` is the protocol for runs in which every call leaves
  through the last loop of `interpret`. After a single bail the word never returns
  to zero, so that after the next successful cancel no call ever starts.
-/

set_option autoImplicit false

namespace Nockchain.Vm.Cancel

open Lib

namespace System

/-- What a thread knows of the value that it has loaded. -/
structure Loads (s : System) : Prop where
  entry : ∀ r, s.interpret = .entrySwap r → 0 ≤ r
  exit : ∀ r, s.interpret = .exitSwap r → r ≠ 0
  inside : s.interpret = .exit ∨ (∃ r, s.interpret = .exitSwap r) → 0 < s.depth
  cancel : ∀ i r, s.cancel i = .swap r → 0 < r

/-- What a step does to the word and to the number of open calls. -/
inductive Moves (s s' : System) : Action → Prop where
  | stays (a : Action) (hbail : a ≠ .bail) (hword : s'.runningStatus = s.runningStatus)
      (hdepth : s'.depth = s.depth) : Moves s s' a
  | opens (hstatus : 0 ≤ s.runningStatus) (hword : s'.runningStatus = s.runningStatus + 1)
      (hdepth : s'.depth = s.depth + 1) : Moves s s' .interpret
  | closes (hcancelled : s.runningStatus < 0) (hword : s'.runningStatus = s.runningStatus + 1)
      (hdepth : s'.depth + 1 = s.depth) : Moves s s' .interpret
  | returns (hstatus : 0 < s.runningStatus) (hword : s'.runningStatus = s.runningStatus - 1)
      (hdepth : s'.depth + 1 = s.depth) : Moves s s' .interpret
  | unsettled (hstatus : s.runningStatus = 0) (hword : s'.runningStatus = 0)
      (hdepth : s'.depth + 1 = s.depth) : Moves s s' .interpret
  | cancels (holder : Nat) (hstatus : 0 < s.runningStatus)
      (hword : s'.runningStatus = -s.runningStatus) (hdepth : s'.depth = s.depth) :
      Moves s s' (.cancel holder)
  | bails (hword : s'.runningStatus = s.runningStatus) (hdepth : s'.depth + 1 = s.depth) :
      Moves s s' .bail

variable {s s' : System} {a : Action} {holder : Nat}

theorem Loads.idle : idle.Loads := by
  constructor <;> simp [System.idle]

theorem Loads.setCancel (h : s.Loads) (pc : CancelPc) (hpc : ∀ r, pc = .swap r → 0 < r) :
    (s.setCancel holder pc).Loads where
  entry := h.entry
  exit := h.exit
  inside := h.inside
  cancel := fun i r hi => by
    have hi : (if i = holder then pc else s.cancel i) = .swap r := hi
    split at hi
    · exact hpc r hi
    · exact h.cancel i r hi

/-- The flag is turned negative only from a positive value. -/
theorem Loads.stepCancel (h : s.Loads) (hs : s.stepCancel holder = some s') :
    s'.Loads ∧ Moves s s' (.cancel holder) := by
  unfold System.stepCancel at hs
  split at hs
  case h_1 => cases hs
  case h_2 =>
    split at hs <;> cases hs
    · exact ⟨h.setCancel _ (by simp), .stays _ (by simp) rfl rfl⟩
    · refine ⟨h.setCancel _ fun r hr => ?_, .stays _ (by simp) rfl rfl⟩
      cases hr
      omega
  case h_3 running hpc =>
    -- The swap knows only the value that it has loaded, which was positive.
    have hrunning := h.cancel holder running hpc
    unfold compareExchange at hs
    by_cases heq : s.runningStatus = running
    · rw [if_pos heq] at hs
      cases hs
      have hloads : ({ s with runningStatus := -running } : System).Loads := { h with }
      refine ⟨hloads.setCancel _ (by simp), .cancels holder (by omega) ?_ rfl⟩
      show -running = -s.runningStatus
      rw [heq]
    · rw [if_neg heq] at hs
      cases hs
      exact ⟨h.setCancel _ (by simp), .stays _ (by simp) rfl rfl⟩

/-- A swap takes effect only on the value that was loaded, so the sign found then is that of the
word. -/
theorem Loads.stepInterpret (h : s.Loads) (hs : s.stepInterpret = some s') :
    s'.Loads ∧ Moves s s' .interpret := by
  unfold System.stepInterpret compareExchange at hs
  split at hs
  case h_1 => cases hs
  case h_2 hpc =>
    split at hs <;> cases hs
    · exact ⟨⟨by simp; omega, by simp, by simp, h.cancel⟩, .stays _ (by simp) rfl rfl⟩
    · exact ⟨⟨by simp, by simp, by simp, h.cancel⟩, .stays _ (by simp) rfl rfl⟩
  case h_3 runningStatus hpc =>
    -- Entering: the swap succeeds only if nobody has changed the word since the load.
    have hstatus := h.entry runningStatus hpc
    by_cases heq : s.runningStatus = runningStatus
    · rw [if_pos heq] at hs
      cases hs
      exact ⟨⟨by simp, by simp, by simp, h.cancel⟩, .opens (by omega) (by simp [heq]) rfl⟩
    · rw [if_neg heq] at hs
      cases hs
      exact ⟨⟨by simp, by simp, by simp, h.cancel⟩, .stays _ (by simp) rfl rfl⟩
  case h_4 hpc =>
    -- Leaving: at zero there is nothing to count down.
    have hinside := h.inside (.inl hpc)
    split at hs <;> cases hs
    case isTrue hzero =>
      refine ⟨⟨by simp, by simp, by simp, h.cancel⟩, .unsettled hzero hzero ?_⟩
      show s.depth - 1 + 1 = s.depth
      omega
    case isFalse hzero =>
      exact ⟨⟨by simp, by simpa using hzero, fun _ => hinside, h.cancel⟩,
        .stays _ (by simp) rfl rfl⟩
  case h_5 runningStatus hpc =>
    have hinside := h.inside (.inr ⟨_, hpc⟩)
    have hstatus := h.exit runningStatus hpc
    have hdepth : s.depth - 1 + 1 = s.depth := by omega
    dsimp only at hs
    by_cases heq : s.runningStatus = runningStatus
    · rw [if_pos heq] at hs
      cases hs
      refine ⟨⟨by simp, by simp, by simp, h.cancel⟩, ?_⟩
      -- A cancelled word counts up to zero, any other one down.
      by_cases hneg : runningStatus < 0
      · exact .closes (by omega) (by simp [hneg, heq]) hdepth
      · exact .returns (by omega) (by simp [hneg, heq]) hdepth
    · rw [if_neg heq] at hs
      cases hs
      exact ⟨⟨by simp, by simp, fun _ => hinside, h.cancel⟩, .stays _ (by simp) rfl rfl⟩

/-- Every action keeps what the threads know, and moves the word and the depth in one of few ways. -/
theorem Loads.step (h : s.Loads) (hs : s.step a = some s') : s'.Loads ∧ Moves s s' a := by
  cases a with
  | call =>
    obtain ⟨-, hs⟩ := Option.ite_none_right_eq_some.1 hs
    cases hs
    exact ⟨⟨by simp, by simp, by simp, h.cancel⟩, .stays _ (by simp) rfl rfl⟩
  | leave =>
    obtain ⟨⟨-, hinside⟩, hs⟩ := Option.ite_none_right_eq_some.1 hs
    cases hs
    exact ⟨⟨by simp, by simp, fun _ => hinside, h.cancel⟩, .stays _ (by simp) rfl rfl⟩
  | bail =>
    obtain ⟨⟨hpc, hinside⟩, hs⟩ := Option.ite_none_right_eq_some.1 hs
    cases hs
    refine ⟨⟨h.entry, h.exit, by simp [hpc], h.cancel⟩, .bails rfl ?_⟩
    show s.depth - 1 + 1 = s.depth
    omega
  | interpret => exact h.stepInterpret hs
  | callCancel holder =>
    obtain ⟨-, hs⟩ := Option.ite_none_right_eq_some.1 hs
    cases hs
    exact ⟨h.setCancel _ (by simp), .stays _ (by simp) rfl rfl⟩
  | cancel holder => exact h.stepCancel hs

/-! ### Runs -/

/-- The magnitude of the word counts the open calls, and `leaked` more. -/
structure Counts (leaked : Nat) (s : System) : Prop where
  loads : s.Loads
  natAbs : s.runningStatus.natAbs = s.depth + leaked

theorem Counts.step {leaked : Nat} (h : s.Counts leaked) (hs : s.step a = some s') :
    s'.Counts (leaked + [a].count .bail) := by
  obtain ⟨hloads, hmoves⟩ := h.loads.step hs
  refine ⟨hloads, ?_⟩
  have hcount := h.natAbs
  cases hmoves with
  | stays a hbail hword hdepth =>
    rw [hdepth, List.count_singleton, if_neg (by simpa using hbail)]
    omega
  | bails hword hdepth =>
    rw [List.count_singleton_self]
    omega
  | opens | closes | returns => simp; omega
  -- The word is not zero in an open call.
  | unsettled | cancels => simp; omega

variable {schedule : List Action}

theorem Counts.run {leaked : Nat} (h : s.Counts leaked)
    (hs : s.run schedule = some s') : s'.Counts (leaked + schedule.count .bail) := by
  induction schedule generalizing s leaked with
  | nil =>
    cases hs
    exact h
  | cons a schedule ih =>
    obtain ⟨s1, hstep, hrun⟩ := bind_eq_some.1 hs
    have hcounts := ih (h.step hstep) hrun
    rwa [Nat.add_assoc, ← List.count_append] at hcounts

theorem counts_of_run (hs : idle.run schedule = some s) : s.Counts (schedule.count .bail) := by
  have hidle : idle.Counts 0 := ⟨Loads.idle, rfl⟩
  simpa using hidle.run hs

/-- While the word is negative no call starts, and the word stays negative until it is zero. -/
theorem Moves.of_neg (h : Moves s s' a) (hneg : s.runningStatus < 0) :
    s'.depth ≤ s.depth ∧ s'.runningStatus ≤ 0 := by
  cases h <;> omega

/-- A run from a cancelled word: it is still cancelled, or it has been zero on the way. -/
theorem run_of_neg (h : s.Loads) (hneg : s.runningStatus < 0) (hs : s.run schedule = some s') :
    s'.runningStatus < 0 ∨
      ∃ before u, before <+: schedule ∧ s.run before = some u ∧ u.runningStatus = 0 := by
  induction schedule generalizing s with
  | nil =>
    cases hs
    exact .inl hneg
  | cons a schedule ih =>
    obtain ⟨s1, hstep, hrun⟩ := bind_eq_some.1 hs
    obtain ⟨hloads, hmoves⟩ := h.step hstep
    have hrun_cons : ∀ more, s.run (a :: more) = s1.run more := fun more => by
      simp only [System.run, List.foldlM_cons, hstep]
      rfl
    by_cases hzero : s1.runningStatus = 0
    · exact .inr ⟨[a], s1, by simp, hrun_cons [], hzero⟩
    have hneg1 : s1.runningStatus < 0 := by
      have := (hmoves.of_neg hneg).2
      omega
    rcases ih hloads hneg1 hrun with hneg' | ⟨before, u, hbefore, hu, hzero'⟩
    · exact .inl hneg'
    · exact .inr ⟨a :: before, u, by simpa using hbefore, (hrun_cons before).trans hu, hzero'⟩

/-! ### The protocol -/

/-- The swap of `cancel` meets the word that it has loaded, so that the call returns `true`. -/
def Succeeds (s : System) (holder : Nat) : Prop :=
  s.cancel holder = .swap s.runningStatus

/-- A cancel that succeeds leaves the word negative. -/
theorem neg_of_succeeds (h : s.Loads) (hswap : s.Succeeds holder)
    (hs : s.step (.cancel holder) = some s') : s'.runningStatus < 0 := by
  have hpos := h.cancel holder _ hswap
  simp only [System.step, System.stepCancel, show s.cancel holder = _ from hswap,
    compareExchange, if_true] at hs
  cases hs
  show -s.runningStatus < 0
  omega

/-- In every schedule of the interpreter and of any number of cancels, where calls leave through
the last loop of `interpret`: the magnitude of the word is the number of open calls, it is zero when
none is open, and after a cancel that succeeds a call starts only once the word has been zero. -/
theorem cancellation_protocol (hs : idle.run schedule = some s) (hnormal : .bail ∉ schedule) :
    s.runningStatus.natAbs = s.depth ∧ (s.depth = 0 → s.runningStatus = 0) ∧
      ∀ holder s₁ more t a t', s.Succeeds holder → s.step (.cancel holder) = some s₁ →
        s₁.run more = some t → t.step a = some t' → t.depth < t'.depth →
          ∃ before u, before <+: more ∧ s₁.run before = some u ∧ u.runningStatus = 0 := by
  have hcounts := counts_of_run hs
  have habs : s.runningStatus.natAbs = s.depth := by
    simpa [List.count_eq_zero_of_not_mem hnormal] using hcounts.natAbs
  refine ⟨habs, fun hdepth => by omega, ?_⟩
  intro holder s₁ more t a t' hswap hcancel hmore hstep hstarts
  have hneg := neg_of_succeeds hcounts.loads hswap hcancel
  have hcounts₁ := hcounts.step hcancel
  rcases run_of_neg hcounts₁.loads hneg hmore with hneg' | hzero
  · -- A call does not start on a word that is still negative.
    have hle := (((hcounts₁.run hmore).loads.step hstep).2.of_neg hneg').1
    omega
  · exact hzero

/-- Two nested calls are cancelled from outside and then leave, the inner one first. -/
theorem cancellation_protocol_nested :
    ∃ s, idle.run [.call, .interpret, .callCancel 7, .interpret, .cancel 7, .call, .interpret,
        .interpret, .cancel 7, .cancel 7, .cancel 7, .leave, .interpret, .interpret, .leave,
        .interpret, .interpret] = some s ∧ s.depth = 0 ∧ s.runningStatus = 0 := by
  obtain ⟨s, hs, hdepth⟩ : ∃ s, idle.run [.call, .interpret, .callCancel 7, .interpret, .cancel 7,
      .call, .interpret, .interpret, .cancel 7, .cancel 7, .cancel 7, .leave, .interpret,
      .interpret, .leave, .interpret, .interpret] = some s ∧ s.depth = 0 := ⟨_, rfl, rfl⟩
  exact ⟨s, hs, hdepth, (cancellation_protocol hs (by decide)).2.1 hdepth⟩

end System

end Nockchain.Vm.Cancel
