import Nockchain.Proofs.Vm.Simulation

/-!
# `Nockchain.Proofs.Vm.Opcodes`: the simulation, opcode by opcode

One lemma for each formula shape: if the simulation holds with the outcomes
that `F` knows, the work item of the formula runs the formula's rule.
Each proof follows the phases of the work item. Operands are evaluated with
`Sim.operand`, which finds the subject unchanged afterwards; the opcodes that
switch the subject (2, 7, 8 and 9) evaluate their last formula either in tail
position, where nobody reads the subject again, or below a `RestoreSubject`
phase, which puts it back (`sim_restore`).

`sim_formula` collects the lemmas: the simulation holds for every formula.
-/

set_option autoImplicit false

namespace Nockchain.Vm

open Nockchain.Lib Sim Formula Hint

section

variable {Cold Warm : Type} {env : Env Cold Warm} {snapshot : ContextSnapshot Cold Warm}
  {virtualFrame : Nat} {memo : Bool} {F : Noun × Noun → Option (Except Crash Noun)} {k : Nat}
  {c : Context Cold Warm} {s : Noun} {m : Machine Cold Warm} {tail : Bool}

variable (env snapshot virtualFrame memo F k c s m tail) in
/-- The work item of `φ`, on top of the stack of `c`, runs the rule of `φ`. -/
def SimWork (φ : Formula) : Prop :=
  AtWork memo c s (φ.work tail) m → Harmless env memo (φ.rule s) →
    SimFrom env snapshot virtualFrame ((φ.rule s).exec F) (k + 1) m (Returned memo c s tail)

/-! ### The turns of a hint -/

variable {w : NockWork} {tag : Nat}

variable {d f b : Noun}

/-- A dynamic hint runs its clue first, unless the cache has the value of its
body. -/
theorem stepWork11D_computeHint {recur : Recur Cold Warm}
    (hpass : matchPreHint env recur m.context m.subject tag b d = .pass m.context) :
    stepWork env recur m (.work11D .computeHint tag b d tail)
      = (m.setTop (.work11D .computeResult tag b d tail)).tryPush b false := by
  simp [stepWork, stepWork11D, hpass]

/-- Then it runs its body. -/
theorem stepWork11D_computeResult (hcov : Hint.Covered env memo tag)
    (recur : Recur Cold Warm) (b d : Noun) :
    stepWork env recur m (.work11D .computeResult tag b d tail)
      = (if tail then m.pop else m.setTop (.work11D .done tag m.res d tail)).tryPush d tail := by
  simp [stepWork, stepWork11D, matchPreNock_of_covered hcov]

/-- Outside tail position a hint whose body has run leaves the result, and may
remember it. -/
theorem sim_hint_done (hint : Option Noun)
    (hcov : Hint.Covered env memo tag) (hat : AtWork memo c s w m) (hd : ReducesTo s d (.ok m.res))
    (hstep : ∀ recur c', matchPostNock env m.context.tick s tag hint d m.res = some c' →
      stepWork env recur m.tick w = { m with context := c' }.finish m.res) :
    SimFrom env snapshot virtualFrame (some (.ok m.res)) (k + 1) m (Returned memo c s tail) := by
  have htick := hat.context.tick
  obtain ⟨cache, hpost, hcache⟩ :=
    matchPostNock_of_covered hcov m.context.tick s hint d m.res htick.cache hd
  refine finishWith hat ?_ ?_ fun recur => hstep recur _ hpost
  · rfl
  · exact ⟨htick.warm, htick.scryStack, hcache⟩

/-- The value of a body that the cache has is the value of the hint, because
its clue runs. -/
theorem reducesTo_clue {r : Noun} (hruns : ClueRuns s (.clue tag b d))
    (hd : ReducesTo s d (.ok r)) : Evals rules ((clue tag b d).rule s) (.ok r) := by
  obtain ⟨v, hv⟩ := hruns r hd
  exact .callOk hv (.callOk hd (.pure r))

/-- A static hint pushes its body itself; a body that some rule matches is
pushed as `try_or_bail!` would. -/
theorem stepWork11S_computeResult (hcov : Hint.Covered env memo tag)
    (recur : Recur Cold Warm) {φ : Formula} (hφ : of d = some φ) :
    stepWork env recur m (.work11S .computeResult tag d tail)
      = (if tail then m.pop else m.setTop (.work11S .done tag d tail)).tryPush d tail := by
  simp [stepWork, stepWork11S, matchPreNock_of_covered hcov, Machine.tryPush, pushFormula_eq, hφ]

/-- A body that no rule matches leaves the loop by `break`. -/
theorem stepWork11S_malformed (hcov : Hint.Covered env memo tag)
    (recur : Recur Cold Warm) (hφ : of d = none) :
    stepWork env recur m (.work11S .computeResult tag d tail)
      = .brk (if tail then m.pop else m.setTop (.work11S .done tag d tail)).context
          (.error bailExit) := by
  simp [stepWork, stepWork11S, matchPreNock_of_covered hcov, pushFormula_eq, hφ]

/-! ### Opcodes that keep the subject -/

theorem sim_const (n : Noun) : SimWork env snapshot virtualFrame memo F k c s m tail (.const n) :=
  fun hat _ => finish hat fun _ => rfl

theorem sim_slot (hq : Quiet env memo virtualFrame c) (axis : Nat) :
    SimWork env snapshot virtualFrame memo F k c s m tail (.slot axis) := by
  intro hat _
  have hslot : m.subject.slot axis = fas axis s := by rw [hat.subject, slot_eq_fas]
  show Sim _ _ _ ((Prog.ofOption .exit (fas axis s)).exec _) _ _ _
  cases hr : fas axis s with
  | some r =>
    refine finish hat fun _ => ?_
    simp [work, stepWork, hslot, hr]
  | none =>
    refine crash hq hat m.context.tick (by rw [Context.tick_stack]) fun _ => ?_
    simp [work, stepWork, hslot, hr]

section

variable (ih : SimUpTo env snapshot virtualFrame memo F k) (hq : Quiet env memo virtualFrame c)

include ih hq

theorem sim_cons (b d : Noun) :
    SimWork env snapshot virtualFrame memo F k c s m tail (.cons b d) := by
  intro hat hharm
  refine operand ih hq hat (fun _ => rfl) hharm fun x m1 hat1 hx _ hharm1 => ?_
  refine (operand ih hq hat1 (fun _ => rfl) hharm1 fun y m2 hat2 hy _ _ => ?_).lower
  subst hx hy
  exact (finish hat2 fun _ => rfl).lower

theorem sim_isCell (b : Noun) :
    SimWork env snapshot virtualFrame memo F k c s m tail (.isCell b) := by
  intro hat hharm
  refine operand ih hq hat (fun _ => rfl) hharm fun x m1 hat1 hx _ _ => ?_
  subst hx
  exact (finish hat1 fun _ => rfl).lower

theorem sim_inc (b : Noun) : SimWork env snapshot virtualFrame memo F k c s m tail (.inc b) := by
  intro hat hharm
  refine operand ih hq hat (fun _ => rfl) hharm fun x m1 hat1 hx _ _ => ?_
  cases x with
  | atom a =>
    refine (finish hat1 fun _ => ?_).lower
    simp [stepWork, hx]
  | cell h t =>
    refine (crash hq hat1 m1.context.tick (by rw [Context.tick_stack]) fun _ => ?_).lower
    simp [stepWork, hx]

theorem sim_eq (b d : Noun) : SimWork env snapshot virtualFrame memo F k c s m tail (.eq b d) := by
  intro hat hharm
  refine operand ih hq hat (fun _ => rfl) hharm fun x m1 hat1 hx _ hharm1 => ?_
  refine (operand ih hq hat1 (fun _ => rfl) hharm1 fun y m2 hat2 hy _ _ => ?_).lower
  subst hx hy
  exact (finish hat2 fun _ => rfl).lower

theorem sim_edit (axis : Nat) (b d : Noun) :
    SimWork env snapshot virtualFrame memo F k c s m tail (.edit axis b d) := by
  intro hat hharm
  refine operand ih hq hat (fun _ => rfl) hharm fun tree m1 hat1 htree _ hharm1 => ?_
  refine (operand ih hq hat1 (fun _ => rfl) hharm1 fun patch m2 hat2 hpatch _ _ => ?_).lower
  subst htree hpatch
  have hedit : edit axis m2.res m1.res = hax axis m2.res m1.res := edit_eq_hax _ _ _
  cases hr : hax axis m2.res m1.res with
  | some r =>
    refine (finish hat2 fun _ => ?_).lower
    simp [stepWork, hedit, hr]
  | none =>
    refine (turn hat2.stack (s := .panic) (fun _ => ?_) panic).lower
    simp [stepWork, hedit, hr]

theorem sim_scry (b d : Noun) :
    SimWork env snapshot virtualFrame memo F k c s m tail (.scry b d) := by
  intro hat hharm
  refine operand ih hq hat (fun _ => rfl) hharm fun x m1 hat1 _ _ hharm1 => ?_
  refine (operand ih hq hat1 (fun _ => rfl) hharm1 fun y m2 hat2 _ _ _ => ?_).lower
  refine (turn hat2.stack (s := .bail m2.context.tick bailExit) (fun _ => ?_) bail).lower
  have hscry : m2.context.tick.scryStack.isCell = false := by
    rw [hat2.context.tick.scryStack]
    exact hq.noScry
  cases hss : m2.context.tick.scryStack with
  | atom a => simp only [stepWork, stepWork12, hss]
  | cell h t => rw [hss] at hscry; cases hscry

/-! ### Opcodes that run a formula in their place -/

/-- The turn that drops the topmost item and runs a last formula with another
subject, in tail position. -/
theorem sim_tail {s' : Noun} (hat : AtWork memo c s w m) (hsame : tail = false → s' = s)
    (hstep : ∀ recur, stepWork env recur m.tick w
      = { m.tick.pop with subject := s' }.tryPush f tail)
    (hharm : Harmless env memo (.call (s', f) .pure)) :
    SimFrom env snapshot virtualFrame ((Prog.call (s', f) Prog.pure).exec F) (k + 1) m
      (Returned memo c s tail) := by
  refine turn hat.stack hstep (last ih hq hat.stack_pop ?_ rfl hsame hharm)
  exact hat.context.tick.setStack (m := m.tick) _

/-- Nock 6: the test, then the branch that it selects. -/
theorem sim_cond (b d e : Noun) :
    SimWork env snapshot virtualFrame memo F k c s m tail (.cond b d e) := by
  intro hat hharm
  refine operand ih hq hat (fun _ => rfl) hharm fun x m1 hat1 hx _ hharm1 => ?_
  have hpop : ∀ f, m1.tick.pop.tryPush f tail
      = { m1.tick.pop with subject := s }.tryPush f tail := by
    intro f
    rw [← hat1.subject]
    rfl
  have hbelow : m1.tick.pop.context.stack.below = m1.context.stack.below := by
    show m1.context.tick.stack.below = _
    rw [Context.tick_stack]
  match x with
  | .atom 0 | .atom 1 =>
    refine (sim_tail ih hq hat1 (fun _ => rfl) (fun _ => ?_) hharm1).lower
    rw [← hpop]
    simp [stepWork, hx]
  | .atom (n + 2) | .cell h t =>
    refine (crash hq hat1 _ hbelow fun _ => ?_).lower
    simp [stepWork, hx]

/-! ### Opcodes that switch the subject -/

/-- The turn that leaves an item `w'` to restore the subject and runs a
formula against another subject in the same frame. -/
theorem sim_restore (w' : NockWork) {s' : Noun} (hat : AtWork memo c s w m)
    (hstep : ∀ recur, stepWork env recur m.tick w
      = { m.tick.setTop w' with subject := s' }.tryPush f false)
    (hrestore : ∀ recur m', stepWork env recur m' w' = .next { m'.pop with subject := s })
    (hharm : Harmless env memo (.call (s', f) .pure)) :
    SimFrom env snapshot virtualFrame ((Prog.call (s', f) Prog.pure).exec F) (k + 1) m
      (Returned memo c s tail) := by
  have hstack := hat.stack_setTop w'
  have hsame : Undisturbed memo c (m.tick.setTop w').context :=
    hat.context.tick.setStack (m := m.tick) _
  refine turn hat.stack hstep (call ih false (hq.of_undisturbed hsame ?_) rfl hharm ?_)
  · show _ ≤ (m.context.tick.stack.setTop w').below.length
    rw [hstack]
    exact Nat.le_refl _
  · intro r m' hret _ _
    have hat' : AtWork memo c m'.subject w' m' :=
      ⟨hret.stack.trans hstack, hsame.trans hret.context, rfl⟩
    exact (restore hat' hret.res fun recur => hrestore recur _).lower

/-- The same in a frame of its own. -/
theorem sim_restore_inFrame (w' : NockWork) {s' : Noun} (hat : AtWork memo c s w m)
    (hstep : ∀ recur, stepWork env recur m.tick w = (m.tick.setTop w').callInFrame s' f)
    (hrestore : ∀ recur m', stepWork env recur m' w' = .next { m'.pop with subject := s })
    (hharm : Harmless env memo (.call (s', f) .pure)) :
    SimFrom env snapshot virtualFrame ((Prog.call (s', f) Prog.pure).exec F) (k + 1) m
      (Returned memo c s tail) := by
  refine turn hat.stack hstep (inFrame ih hq (hat.stack_setTop w') ?_ hharm ?_)
  · exact hat.context.tick.setStack (m := m.tick) _
  · intro r m' hat' hres _
    exact (restore hat' hres fun recur => hrestore recur _).lower

theorem sim_nock (b d : Noun) :
    SimWork env snapshot virtualFrame memo F k c s m tail (.nock b d) := by
  intro hat hharm
  refine operand ih hq hat (fun _ => rfl) hharm fun x m1 hat1 hx _ hharm1 => ?_
  refine (operand ih hq hat1 (fun _ => rfl) hharm1 fun y m2 hat2 hy _ hharm2 => ?_).lower
  subst hx hy
  cases tail with
  | true => exact (sim_tail ih hq hat2 (by simp) (fun _ => rfl) hharm2).lower
  | false =>
    refine (sim_restore_inFrame ih hq (.work2 .restoreSubject s d false) hat2
      (fun _ => ?_) (fun _ _ => rfl) hharm2).lower
    rw [← hat2.subject]
    rfl

theorem sim_comp (b d : Noun) :
    SimWork env snapshot virtualFrame memo F k c s m tail (.comp b d) := by
  intro hat hharm
  refine operand ih hq hat (fun _ => rfl) hharm fun x m1 hat1 hx _ hharm1 => ?_
  subst hx
  cases tail with
  | true => exact (sim_tail ih hq hat1 (by simp) (fun _ => rfl) hharm1).lower
  | false =>
    refine (sim_restore ih hq (.work7 .restoreSubject s d false) hat1 (fun _ => ?_)
      (fun _ _ => rfl) hharm1).lower
    rw [← hat1.subject]
    rfl

theorem sim_pin (b d : Noun) :
    SimWork env snapshot virtualFrame memo F k c s m tail (.pin b d) := by
  intro hat hharm
  refine operand ih hq hat (fun _ => rfl) hharm fun x m1 hat1 hx _ hharm1 => ?_
  subst hx
  cases tail with
  | true =>
    refine (sim_tail ih hq hat1 (by simp) (fun _ => ?_) hharm1).lower
    rw [← hat1.subject]
    rfl
  | false =>
    refine (sim_restore ih hq (.work8 .restoreSubject s d false) hat1 (fun _ => ?_)
      (fun _ _ => rfl) hharm1).lower
    rw [← hat1.subject]
    rfl

/-- Nock 9: the core, then the formula at the axis in it, with the core as subject. -/
theorem sim_arm (axis : Nat) (b : Noun) :
    SimWork env snapshot virtualFrame memo F k c s m tail (.arm axis b) := by
  intro hat hharm
  refine operand ih hq hat (fun _ => rfl) hharm fun x m1 hat1 hx _ hharm1 => ?_
  subst hx
  have hjet : ∀ f, (if env.shamHints then none
      else env.findJet m1.context.tick.warm m1.res f) = none := by
    intro f
    rw [hat1.context.tick.warm, hq.noJets]
    exact ite_self none
  have hslot : m1.res.slot axis = fas axis m1.res := slot_eq_fas _ _
  cases hr : fas axis m1.res with
  | none =>
    refine (crash hq hat1 m1.context.tick (by rw [Context.tick_stack]) fun _ => ?_).lower
    simp [stepWork, stepWork9, hslot, hr]
  | some f =>
    rw [hr] at hharm1
    cases tail with
    | true =>
      refine (sim_tail ih hq hat1 (by simp) (fun _ => ?_) hharm1).lower
      simp only [stepWork, stepWork9, hslot, hr, hjet]
      rfl
    | false =>
      refine (sim_restore_inFrame ih hq (.work9 .restoreSubject axis s false) hat1
        (fun _ => ?_) (fun _ _ => rfl) hharm1).lower
      rw [← hat1.subject]
      simp only [stepWork, stepWork9, hslot, hr, hjet]
      rfl

/-! ### Hints -/

/-- What a dynamic hint does once its clue is to be evaluated. -/
theorem sim_clue_miss (hcov : Hint.Covered env memo tag)
    (hat : AtWork memo c s (.work11D .computeHint tag b d (tail && isTail tag)) m)
    (hpass : ∀ recur, matchPreHint env recur m.context.tick m.subject tag b d
      = .pass m.context.tick) (hharm : Harmless env memo ((clue tag b d).rule s)) :
    SimFrom env snapshot virtualFrame (((clue tag b d).rule s).exec F) (k + 1) m
      (Returned memo c s tail) := by
  refine operand ih hq hat (fun recur => stepWork11D_computeHint (m := m.tick)
      (hpass recur)) hharm fun x m1 hat1 _ _ hharm1 => ?_
  cases htail : tail && isTail tag with
  | true =>
    rw [htail] at hat1
    have ht : tail := (Bool.and_eq_true_iff.mp htail).1
    subst ht
    refine (sim_tail ih hq hat1 (fun _ => rfl) (fun recur => ?_) hharm1).lower
    rw [← hat1.subject, stepWork11D_computeResult hcov]
    rfl
  | false =>
    rw [htail] at hat1
    refine (operand ih hq hat1 (fun recur => stepWork11D_computeResult hcov recur b d)
      hharm1 fun y m2 hat2 hy hd _ => ?_).lower
    subst hy
    refine (sim_hint_done (some m1.res) hcov hat2 hd fun recur c' hpost => ?_).lower
    simp [stepWork, stepWork11D, hat2.subject, hpost]

/-- A dynamic hint: the clue is computed first, and its result is only looked at by `%memo`. -/
theorem sim_clue (htame : isNoop env tag ∨
      (memo ∧ tag = Noun.tas "memo") ∧ ClueRuns s (.clue tag b d)) :
    SimWork env snapshot virtualFrame memo F k c s m tail (.clue tag b d) := by
  intro hat hharm
  rw [work] at hat
  have hcov : Hint.Covered env memo tag := htame.imp_right And.left
  rcases matchPreHint_of_covered hcov m.context.tick m.subject b d with
    hpass | ⟨⟨hmemo, htag⟩, r, hlookup, hfound⟩
  · exact sim_clue_miss ih hq hcov hat hpass hharm
  -- the cached value ends the item before the clue has run
  have hruns : ClueRuns s (.clue tag b d) := by
    rcases htame with hnoop | ⟨-, hruns⟩
    · rw [htag] at hnoop
      cases hnoop
    · exact hruns
  rw [hat.subject] at hlookup
  have hd : ReducesTo s d (.ok r) := hat.context.tick.cache hmemo s d r hlookup
  refine of_evals ih (reducesTo_clue hruns hd) (finish hat fun recur => ?_)
  simp [stepWork, stepWork11D, hfound]

/-- A static hint: the loop goes on with the body, in a context that may have changed. -/
theorem sim_hint (hcov : Hint.Covered env memo tag) (d : Noun) :
    SimWork env snapshot virtualFrame memo F k c s m tail (.hint tag d) := by
  intro hat hharm
  rw [work] at hat
  cases hφ : of d with
  | none =>
    have hcrash : Evals rules (rules (s, d)) (.error .exit) := by
      simp only [rules, hφ]
      exact .fail _
    refine of_evals ih (.callError hcrash) (crash hq hat _ ?_ fun recur =>
      stepWork11S_malformed hcov recur hφ)
    have hbelow := congrArg NockStack.below (Context.tick_stack m.context)
    cases tail && isTail tag <;> exact hbelow
  | some φ =>
    cases htail : tail && isTail tag with
    | true =>
      rw [htail] at hat
      have ht : tail := (Bool.and_eq_true_iff.mp htail).1
      subst ht
      refine sim_tail ih hq hat (fun _ => rfl) (fun recur => ?_) hharm
      rw [← hat.subject, stepWork11S_computeResult hcov recur hφ]
      rfl
    | false =>
      rw [htail] at hat
      refine operand ih hq hat (fun recur => stepWork11S_computeResult hcov recur hφ) hharm
        fun y m1 hat1 hy hd _ => ?_
      subst hy
      refine (sim_hint_done none hcov hat1 hd fun recur c' hpost => ?_).lower
      simp [stepWork, stepWork11S, hat1.subject, hpost]

/-! ### All formulas -/

/-- The work item of every formula runs the formula's rule. -/
theorem sim_work {φ : Formula} (hφ : of f = some φ)
    (htame : Tame env memo (s, f)) : SimWork env snapshot virtualFrame memo F k c s m tail φ := by
  cases φ with
  | cons b d => exact sim_cons ih hq b d
  | slot axis => exact sim_slot hq axis
  | const n => exact sim_const n
  | nock b d => exact sim_nock ih hq b d
  | isCell b => exact sim_isCell ih hq b
  | inc b => exact sim_inc ih hq b
  | eq b d => exact sim_eq ih hq b d
  | cond b d e => exact sim_cond ih hq b d e
  | comp b d => exact sim_comp ih hq b d
  | pin b d => exact sim_pin ih hq b d
  | arm axis b => exact sim_arm ih hq axis b
  | edit axis b d => exact sim_edit ih hq axis b d
  | hint tag d => exact sim_hint ih hq ((htame _ tag hφ rfl).imp_right And.left) d
  | clue tag b d => exact sim_clue ih hq (htame _ tag hφ rfl)
  | scry b d => exact sim_scry ih hq b d

end

/-- One more unfolding of the outcomes, one more turn of the loop. -/
theorem sim_unfold (ih : SimUpTo env snapshot virtualFrame memo F k)
    (hq : Quiet env memo virtualFrame m.context)
    (htame : ∀ i, Reaches rules (m.subject, f) i → Tame env memo i) :
    SimStep env snapshot virtualFrame ((rules (m.subject, f)).exec F) (k + 1) (m.tryPush f tail)
      (Returned memo m.context m.subject tail) := by
  have hpush := pushFormula_eq m.context.stack f tail
  cases hφ : of f with
  | none =>
    have hrule : (rules (m.subject, f)).exec F = some (.error .exit) := by
      simp [rules, hφ, Prog.exec]
    have hbail : m.tryPush f tail = .bail m.context bailExit := by
      simp [Machine.tryPush, hpush, hφ]
    rw [hrule, hbail]
    exact bail
  | some φ =>
    have hrule : rules (m.subject, f) = φ.rule m.subject := by
      simp [rules, hφ]
    have hnext : m.tryPush f tail = .next (m.setStack (m.context.stack.push (φ.work tail))) := by
      simp [Machine.tryPush, hpush, hφ]
    have hharm : Harmless env memo (φ.rule m.subject) := hrule ▸ covered_body htame
    have hat : AtWork memo m.context m.subject (φ.work tail)
        (m.setStack (m.context.stack.push (φ.work tail))) :=
      ⟨rfl, ⟨rfl, rfl, hq.cache⟩, rfl⟩
    rw [hrule, hnext]
    exact sim_work ih hq hφ (htame _ Relation.ReflTransGen.refl) hat hharm

variable (env snapshot virtualFrame memo)

/-- The loop finds the outcomes there are: by induction on the number of
unfoldings they take. -/
theorem sim_fuelled (n : Nat) : SimUpTo env snapshot virtualFrame memo (fuelled rules n) 0 where
  sound := fun _ _ h => fuelled_sound h
  complete := fun h => absurd rfl h
  sim := by
    induction n with
    | zero => exact fun _ _ _ _ _ _ n hn => absurd hn (Nat.not_lt_zero n)
    | succ n ih =>
      intro m f tail hq htame
      have hn : SimUpTo env snapshot virtualFrame memo (fuelled rules n) 0 :=
        ⟨fun _ _ h => fuelled_sound h, fun h => absurd rfl h, ih⟩
      exact (sim_unfold hn hq htame).lower

/-- Where there is none it does not stop: by induction on the number of turns. -/
theorem sim_formula (k : Nat) : SimUpTo env snapshot virtualFrame memo (outcome rules) k where
  sound := fun _ _ h => outcome_eq_some.mp h
  complete := fun _ _ _ h => outcome_eq_some.mpr h
  sim := by
    induction k with
    | zero =>
      intro m f tail hq htame
      cases ho : outcome rules (m.subject, f) with
      | none => exact fun _ n hn => absurd hn (Nat.not_lt_zero n)
      | some o =>
        obtain ⟨n, hn⟩ := evals_body_iff.mp (outcome_eq_some.mp ho)
        rw [← hn]
        exact (sim_fuelled env snapshot virtualFrame memo n).sim m f tail hq htame
    | succ k ih =>
      intro m f tail hq htame
      have hk : SimUpTo env snapshot virtualFrame memo (outcome rules) k :=
        ⟨fun _ _ h => outcome_eq_some.mp h, fun _ _ _ h => outcome_eq_some.mpr h, ih⟩
      rw [outcome_eq_exec]
      exact sim_unfold hk hq htame

end

end Nockchain.Vm
