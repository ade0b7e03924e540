import Nockchain.Proofs.Vm.Turn

/-!
# `Nockchain.Proofs.Vm.Atomicity`: what a failed `interpret` leaves behind

A failed run should leave its caller's context as it was: the stack at the
caller's frame, the snapshot of `cold`, `warm` and `cache` back in place, the
running counter where it stood (`Restored`). `break` from the loop does all of
this. An early return from inside the loop does none of it, and neither does
the early return for a formula that cannot be pushed on entry: the run's frame
stays on the stack and the counter stays one too high.

`restored_iff` says that this is the whole story. A failed run restores its
caller's context exactly when neither it nor any run nested in it returned
early (`NoEarlyReturn`). The runs in question are those in which every jet
hands back the stack and the counter it was given (`JetsBalanced`); a jet that
calls `interpret` itself inherits the defect.

The proof follows the frames of a run (`Framed`): the run's own frame ends in
`Done`, every frame above it in `Ret`, so no turn reaches the caller's frames,
and unwinding stops at them.
-/

set_option autoImplicit false

namespace Nockchain.Vm

open Context

section

variable {Cold Warm : Type}

/-! ### Statements about whole runs -/

/-- The caller's context is restored. -/
structure Restored (c c' : Context Cold Warm) : Prop where
  stack : c'.stack = c.stack
  cold : c'.cold = c.cold
  warm : c'.warm = c.warm
  cache : c'.cache = c.cache
  status : c'.runningStatus = c.runningStatus ∨ c'.runningStatus = -c.runningStatus

/-- Every turn of the loop from `m` on satisfies `P`, and every nested call
satisfies `nested`. -/
def EveryTurn (env : Env Cold Warm) (recur : Recur Cold Warm)
    (P : Machine Cold Warm → NockWork → Prop) (nested : Context Cold Warm → Noun → Noun → Prop) :
    Nat → Machine Cold Warm → Prop
  | 0, _ => True
  | n + 1, m =>
    ∀ w rest, m.context.stack.frame.work = w :: rest → P m.tick w ∧
      (∀ c s f, nestedCall env m.tick w = some (c, s, f) → nested c s f) ∧
      ∀ m', step env recur m.tick = .next m' → EveryTurn env recur P nested n m'

/-- Every formula that starts a run satisfies `E`, and every turn satisfies
`P`, in a run of `interpret` and in the runs nested in it. A run that is
cancelled before it starts has no turns. -/
def EveryRun (env : Env Cold Warm) (E : Noun → Prop)
    (P : Recur Cold Warm → Machine Cold Warm → NockWork → Prop) :
    Nat → Context Cold Warm → Noun → Noun → Prop
  | 0, _, _, _ => True
  | fuel + 1, c, s, f =>
    0 ≤ c.tick.runningStatus → E f ∧ ∀ m, (start c s).tryPush f true = .next m →
        EveryTurn env (interpret env fuel) (P (interpret env fuel)) (EveryRun env E P fuel) fuel m

/-- No run returns early: every formula that starts a run can be pushed, and
no turn leaves the loop by `return`. -/
def NoEarlyReturn (env : Env Cold Warm) :
    Nat → Context Cold Warm → Noun → Noun → Prop :=
  EveryRun env (fun f => (Formula.of f).isSome)
    fun recur m w => ∀ c e, stepWork env recur m w ≠ .bail c e

/-- Every jet that a run calls hands back the stack and the counter. -/
def JetsBalanced (env : Env Cold Warm) :
    Nat → Context Cold Warm → Noun → Noun → Prop :=
  EveryRun env (fun _ => True) fun _ m w => JetBalanced env m w

/-! ### Frames of a run -/

/-- The frames of a run above its caller: the run's own frame ends in `Done`,
those above it in `Ret`. -/
inductive Framed (caller : NockStack) : Frame → List Frame → Prop where
  | base {frame : Frame} (ws : List NockWork) (hws : ∀ w ∈ ws, w.Plain)
      (hwork : frame.work = ws ++ [.done]) : Framed caller frame (caller.frame :: caller.below)
  | call {frame parent : Frame} {below : List Frame} (ws : List NockWork)
      (hws : ∀ w ∈ ws, w.Plain) (hwork : frame.work = ws ++ [.ret])
      (hparent : Framed caller parent below) : Framed caller frame (parent :: below)

variable {caller : NockStack}

/-- Work that ends in a non-plain item and starts with a plain one. -/
theorem work_tail {ws rest : List NockWork} {top last : NockWork} (hws : ∀ w ∈ ws, w.Plain)
    (htop : top.Plain) (hlast : last.isPlain = false) (h : ws ++ [last] = top :: rest) :
    ∃ ws', rest = ws' ++ [last] ∧ ∀ w ∈ ws', w.Plain := by
  cases ws with
  | nil =>
    cases h
    exact absurd (htop.symm.trans hlast) (by simp)
  | cons w ws' =>
    cases h
    exact ⟨ws', rfl, fun w hw => hws w (.tail _ hw)⟩

/-- Replacing plain items at the top keeps the frames of a run. -/
theorem Framed.replace {frame frame' : Frame} {below : List Frame} {top : NockWork}
    {rest : List NockWork} (ws : List NockWork) (h : Framed caller frame below)
    (hs : frame.work = top :: rest) (htop : top.Plain) (hws : ∀ w ∈ ws, w.Plain) (hs' : frame'.work = ws ++ rest) :
    Framed caller frame' below := by
  have happend : ∀ ws' : List NockWork, (∀ w ∈ ws', w.Plain) → ∀ w ∈ ws ++ ws', w.Plain := by
    intro ws' hws' w hw
    rcases List.mem_append.mp hw with hw | hw
    · exact hws w hw
    · exact hws' w hw
  cases h with
  | base vs hvs hwork =>
    obtain ⟨ws', rfl, hws'⟩ := work_tail hvs htop rfl (hwork.symm.trans hs)
    exact .base (ws ++ ws') (happend ws' hws') (by rw [hs', List.append_assoc])
  | call vs hvs hwork hparent =>
    obtain ⟨ws', rfl, hws'⟩ := work_tail hvs htop rfl (hwork.symm.trans hs)
    exact .call (ws ++ ws') (happend ws' hws') (by rw [hs', List.append_assoc]) hparent

/-- A turn of the loop keeps the frames of a run. -/
theorem Framed.turn {s s' : NockStack} (h : Framed caller s.frame s.below)
    {res : Noun} (hturn : StackTurn res s s') : Framed caller s'.frame s'.below := by
  cases hturn with
  | work top rest ws hs htop hs' hws hbelow _ =>
    rw [hbelow]
    exact h.replace ws hs htop hws hs'
  | call top φ rest frame w hs htop hframe hw _ hs' hbelow _ _ =>
    rw [hbelow]
    refine .call [φ.work true] (by simpa using φ.work_isPlain true) hs' ?_
    exact h.replace [w] hs htop (by simpa using hw.plain) hframe
  | ret rest hs hpop =>
    -- only a frame pushed by a call has `Ret` on top
    cases s with
    | mk frame below =>
      cases h with
      | base ws hws hwork =>
        cases ws with
        | nil => rw [hs] at hwork; cases hwork
        | cons w ws =>
          rw [hs] at hwork
          cases hwork
          exact absurd (hws .ret (.head _)) (by simp [NockWork.isPlain])
      | call ws hws hwork hparent =>
        cases hpop
        exact hparent

/-- `Done` is on top only in the run's own frame, and popping that frame gives
the caller's stack back. -/
theorem Framed.done {s s' : NockStack} {rest : List NockWork}
    (h : Framed caller s.frame s.below) (hs : s.frame.work = .done :: rest)
    (hpop : s.framePop = some s') : s' = caller := by
  cases s with
  | mk frame below =>
    cases h with
    | base ws hws hwork =>
      cases hpop
      rfl
    | call ws hws hwork hparent =>
      cases ws with
      | nil => rw [hs] at hwork; cases hwork
      | cons w ws =>
        rw [hs] at hwork
        cases hwork
        exact absurd (hws .done (.head _)) (by simp [NockWork.isPlain])

/-- Unwinding to the current frame does nothing. -/
theorem unwind_length (frame : Frame) (below : List Frame) :
    NockStack.unwind below.length frame below = some { frame := frame, below := below } := by
  cases below <;> simp [NockStack.unwind]

/-- Unwinding the frames of a run stops at the caller's frame. -/
theorem Framed.unwind {frame frame' : Frame} {below : List Frame} (h : Framed caller frame below) :
    NockStack.unwind caller.framePointer frame' below = some caller ∧
      caller.framePointer < below.length := by
  induction h generalizing frame' with
  | base ws hws hwork =>
    refine ⟨?_, Nat.lt_succ_self _⟩
    have hne : (caller.frame :: caller.below).length ≠ caller.framePointer := by
      simp [NockStack.framePointer]
    rw [NockStack.unwind, if_neg hne]
    exact unwind_length caller.frame caller.below
  | call ws hws hwork hparent ih =>
    obtain ⟨hun, hlt⟩ := ih
    refine ⟨?_, Nat.lt_succ_of_lt hlt⟩
    rw [NockStack.unwind, if_neg (by rw [List.length_cons]; omega), hun]

/-! ### The running counter -/

theorem tick_sameStatus (c : Context Cold Warm) : SameStatus c c.tick := by
  unfold SameStatus tick
  split
  · rfl
  rename_i now rest _
  cases now with
  | false => rfl
  | true =>
    show (cancel c.runningStatus).natAbs = _
    unfold cancel
    split
    · rfl
    · exact Int.natAbs_neg _

/-- The common exit path takes the run off the counter. -/
theorem natAbs_leaveStatus (i : Int) : (leaveStatus i).natAbs = i.natAbs - 1 := by
  unfold leaveStatus
  split
  · omega
  · split <;> omega

variable {c c' : Context Cold Warm}

variable {e : Error} {snapshot : ContextSnapshot Cold Warm}

/-- The counter after `leave`, whichever way it goes on. -/
theorem leave_status {virtualFrame : Nat} {e' : Error}
    (h : leave c snapshot virtualFrame (.error e) = .err c' e') :
    c'.runningStatus.natAbs = c.runningStatus.natAbs - 1 := by
  simp only [leave, exit] at h
  split at h
  · cases h
  · cases h
    show (leaveStatus c.tick.runningStatus).natAbs = _
    rw [natAbs_leaveStatus, tick_sameStatus c]

/-- `leave` with an error, from frames of a run: the caller's stack and the
snapshot are back. -/
theorem leave_error {frame : Frame} {e' : Error} (hframed : Framed caller frame c.stack.below)
    (h : leave c snapshot caller.framePointer (.error e) = .err c' e') :
    c'.stack = caller ∧ c'.save = snapshot := by
  simp only [leave, exit, restore, tick_stack, hframed.unwind.1] at h
  cases h
  exact ⟨rfl, rfl⟩

/-! ### One loop -/

variable {env : Env Cold Warm} {recur : Recur Cold Warm}

/-- What is known of a run that starts at a context, a subject and a formula
when its jets are balanced (`jets`); `clean` says that it has no early
return. -/
structure RunSpec (jets clean : Context Cold Warm → Noun → Noun → Prop)
    (recur : Recur Cold Warm) : Prop where
  ok : ∀ c s f c' r, jets c s f → recur c s f = some (.ok c' r) → Balanced c c' ∧ clean c s f
  restored : ∀ c s f c' e, jets c s f → recur c s f = some (.err c' e) → clean c s f → Restored c c'
  leaked : ∀ c s f c' e, jets c s f → recur c s f = some (.err c' e) → ¬ clean c s f →
    c.runningStatus.natAbs < c'.runningStatus.natAbs

variable {s f : Noun}

/-- A failed run never lowers the counter. -/
theorem RunSpec.status_le {jets clean : Context Cold Warm → Noun → Noun → Prop}
    (h : RunSpec jets clean recur) (hjets : jets c s f) (herr : recur c s f = some (.err c' e)) :
    c.runningStatus.natAbs ≤ c'.runningStatus.natAbs := by
  by_cases hclean : clean c s f
  · have := (h.restored c s f c' e hjets herr hclean).status
    omega
  · exact Nat.le_of_lt (h.leaked c s f c' e hjets herr hclean)

/-- What is known of the outcome of a loop; `clean` says that it has no early
return. -/
structure LoopSpec (caller : NockStack) (snapshot : ContextSnapshot Cold Warm) (base : Nat)
    (clean : Prop) (out : Option (Outcome Cold Warm)) : Prop where
  ok : ∀ c r, out = some (.ok c r) → (c.stack = caller ∧ c.runningStatus.natAbs = base) ∧ clean
  restored : ∀ c e, out = some (.err c e) → clean →
    (c.stack = caller ∧ c.save = snapshot) ∧ c.runningStatus.natAbs = base
  leaked : ∀ c e, out = some (.err c e) → ¬ clean → base < c.runningStatus.natAbs

theorem LoopSpec.congr {base : Nat} {clean clean' : Prop}
    {out : Option (Outcome Cold Warm)} (h : LoopSpec caller snapshot base clean out)
    (hiff : clean' ↔ clean) : LoopSpec caller snapshot base clean' out where
  ok := fun c r ho => ⟨(h.ok c r ho).1, hiff.mpr (h.ok c r ho).2⟩
  restored := fun c e ho hc => h.restored c e ho (hiff.mp hc)
  leaked := fun c e ho hc => h.leaked c e ho fun hc' => hc (hiff.mpr hc')

/-- A panic and a lack of fuel leave nothing to be said. -/
theorem LoopSpec.of_panic {base : Nat} {clean : Prop} :
    LoopSpec caller snapshot base clean (some .panic) :=
  ⟨nofun, nofun, nofun⟩

theorem LoopSpec.of_none {base : Nat} {clean : Prop} :
    LoopSpec caller snapshot base clean none :=
  ⟨nofun, nofun, nofun⟩

/-- The first turn is at the topmost item. -/
theorem everyTurn_succ {P : Machine Cold Warm → NockWork → Prop}
    {nested : Context Cold Warm → Noun → Noun → Prop} {n : Nat} {m : Machine Cold Warm}
    {w : NockWork} {rest : List NockWork} (hs : m.context.stack.frame.work = w :: rest) :
    EveryTurn env recur P nested (n + 1) m ↔ P m.tick w ∧
      (∀ c s f, nestedCall env m.tick w = some (c, s, f) → nested c s f) ∧
      ∀ m', stepWork env recur m.tick w = .next m' → EveryTurn env recur P nested n m' := by
  rw [EveryTurn, step_tick hs]
  constructor
  · exact fun h => h w rest hs
  · intro h w' rest' hs'
    rw [hs] at hs'
    cases hs'
    exact h

section

variable {jets clean : Context Cold Warm → Noun → Noun → Prop} {m : Machine Cold Warm}
  {w : NockWork} {rest : List NockWork} {snapshot : ContextSnapshot Cold Warm} {base : Nat}

/-- The turn at `m` has no early return, neither has its nested call, and what
follows satisfies `after`. -/
def CleanTurn (env : Env Cold Warm) (recur : Recur Cold Warm)
    (clean : Context Cold Warm → Noun → Noun → Prop) (m : Machine Cold Warm) (w : NockWork)
    (after : Machine Cold Warm → Prop) : Prop :=
  (∀ c e, stepWork env recur m w ≠ .bail c e) ∧
  (∀ c s f, nestedCall env m w = some (c, s, f) → clean c s f) ∧
  ∀ m', stepWork env recur m w = .next m' → after m'

variable {after : Machine Cold Warm → Prop}

/-- A turn that goes on had no early return in its nested call. -/
theorem cleanTurn_of_next (hrec : RunSpec jets clean recur)
    (hnjets : ∀ c s f, nestedCall env m w = some (c, s, f) → jets c s f) {m' : Machine Cold Warm}
    (hw : stepWork env recur m w = .next m') : CleanTurn env recur clean m w after ↔ after m' := by
  constructor
  · exact fun h => h.2.2 m' hw
  refine fun h => ⟨by simp [hw], ?_, ?_⟩
  · intro c s f hcall
    have hdec : Decides (recur c s f) (stepWork env recur m w) := nestedCall_decides hcall
    rw [hw] at hdec
    match hr : recur c s f with
    | none | some .panic => rw [hr] at hdec; cases hdec
    | some (.err c' e) => rw [hr] at hdec; obtain ⟨_, h | h⟩ := hdec <;> cases h
    | some (.ok c' r) => exact (hrec.ok _ _ _ _ _ (hnjets _ _ _ hcall) hr).2
  · intro m'' hw'
    rw [hw] at hw'
    cases hw'
    exact h

variable {c : Context Cold Warm}

/-- The turn at `Done`. -/
theorem loopSpec_done (hframed : Framed caller m.context.stack.frame m.context.stack.below)
    (hs : m.context.stack.frame.work = w :: rest)
    (hstatus : m.context.runningStatus.natAbs = base + 1) {r : Noun}
    (hw : stepWork env recur m w = .brk c (.ok r))
    (hspec : TurnSpec env recur m w (.brk c (.ok r))) :
    LoopSpec caller snapshot base (CleanTurn env recur clean m w after)
      (some (leave c snapshot caller.framePointer (.ok r))) := by
  obtain ⟨rfl, hpop, hsame⟩ := hspec
  refine ⟨?_, nofun, nofun⟩
  intro c' r' ho
  cases ho
  refine ⟨⟨?_, ?_⟩, by simp [hw], nofun, by simp [hw]⟩
  · show c.tick.stack = caller
    rw [tick_stack]
    exact hframed.done hs hpop
  · show (leaveStatus c.tick.runningStatus).natAbs = base
    rw [natAbs_leaveStatus, tick_sameStatus c, hsame, hstatus]
    rfl

/-- A turn that breaks with an error. If its nested call returned early, the
counter is too high already; otherwise the frames are as the turn found them. -/
theorem loopSpec_error (hrec : RunSpec jets clean recur)
    (hframed : Framed caller m.context.stack.frame m.context.stack.below)
    (hstatus : m.context.runningStatus.natAbs = base + 1) (hjet : JetBalanced env m w)
    (hnjets : ∀ c s f, nestedCall env m w = some (c, s, f) → jets c s f)
    (hw : stepWork env recur m w = .brk c (.error e))
    (hspec : TurnSpec env recur m w (.brk c (.error e))) :
    LoopSpec caller snapshot base (CleanTurn env recur clean m w after)
      (some (leave c snapshot caller.framePointer (.error e))) := by
  refine ⟨?_, ?_, ?_⟩
  · intro c' r ho
    simp only [leave, exit] at ho
    split at ho <;> cases ho
  · intro c' e' ho hclean
    have hleave := Option.some.inj ho
    have hkept : c.stack.below = m.context.stack.below ∧ SameStatus m.context c := by
      rcases hspec with ⟨_, hstack, hsame⟩ | ⟨c1, s1, f1, e1, hcall, hb, herr⟩
      · exact ⟨by rw [hstack]; rfl, hsame⟩
      · have hres := hrec.restored _ _ _ _ _ (hnjets _ _ _ hcall) herr (hclean.2.1 _ _ _ hcall)
        refine ⟨by rw [hres.stack, hb.stack], ?_⟩
        exact (Int.natAbs_eq_natAbs_iff.mpr hres.status).trans hb.status
    have hframed' : Framed caller m.context.stack.frame c.stack.below := by
      rwa [hkept.1]
    refine ⟨leave_error hframed' hleave, ?_⟩
    rw [leave_status hleave, hkept.2, hstatus]
    rfl
  · intro c' e' ho hunclean
    have hleave := Option.some.inj ho
    -- the only way to be unclean here is an early return in the nested call
    have hnested : ∃ c1 s1 f1, nestedCall env m w = some (c1, s1, f1) ∧ ¬ clean c1 s1 f1 := by
      by_contra hall
      refine hunclean ⟨by simp [hw], ?_, by simp [hw]⟩
      intro c1 s1 f1 hcall
      by_contra hnc
      exact hall ⟨c1, s1, f1, hcall, hnc⟩
    obtain ⟨c1, s1, f1, hcall, hnc⟩ := hnested
    have hsame := nestedCall_status hjet hcall
    have hdec : Decides (recur c1 s1 f1) (stepWork env recur m w) := nestedCall_decides hcall
    rw [hw] at hdec
    rcases hr : recur c1 s1 f1 with _ | ⟨c2, r⟩ | ⟨c2, e2⟩ | _
    case none => rw [hr] at hdec; cases hdec
    case some.panic => rw [hr] at hdec; cases hdec
    case some.ok => exact absurd (hrec.ok _ _ _ _ _ (hnjets _ _ _ hcall) hr).2 hnc
    case some.err =>
      rw [hr] at hdec
      obtain ⟨_, h | h⟩ := hdec
      · cases h
        have hleak := hrec.leaked _ _ _ _ _ (hnjets _ _ _ hcall) hr hnc
        rw [hsame] at hleak
        rw [leave_status hleave]
        omega
      · cases h

/-- An early return: the run is still on the counter. -/
theorem loopSpec_bail (hrec : RunSpec jets clean recur)
    (hstatus : m.context.runningStatus.natAbs = base + 1)
    (hnjets : ∀ c s f, nestedCall env m w = some (c, s, f) → jets c s f)
    (hw : stepWork env recur m w = .bail c e) (hspec : TurnSpec env recur m w (.bail c e)) :
    LoopSpec caller snapshot base (CleanTurn env recur clean m w after) (some (.err c e)) := by
  refine ⟨nofun, ?_, ?_⟩
  · exact fun _ _ _ hclean => absurd hw (hclean.1 c e)
  intro c' e' ho _
  cases ho
  rcases hspec with hsame | ⟨c1, s1, f1, e1, hcall, hsame, herr⟩
  · rw [hsame, hstatus]
    exact Nat.lt_succ_self base
  · have hle := hrec.status_le (hnjets _ _ _ hcall) herr
    rwa [hsame, hstatus] at hle

end

/-- What a loop leaves behind, by induction on its turns. -/
theorem loop_spec {jets clean : Context Cold Warm → Noun → Noun → Prop}
    (snapshot : ContextSnapshot Cold Warm) {base : Nat} (hrec : RunSpec jets clean recur)
    (n : Nat) : ∀ m : Machine Cold Warm, Framed caller m.context.stack.frame m.context.stack.below →
      m.context.runningStatus.natAbs = base + 1 → EveryTurn env recur (JetBalanced env) jets n m →
      LoopSpec caller snapshot base
        (EveryTurn env recur (fun m w => ∀ c e, stepWork env recur m w ≠ .bail c e) clean n m)
        (loop env recur snapshot caller.framePointer n m) := by
  induction n with
  | zero => exact fun _ _ _ _ => LoopSpec.of_none
  | succ n ih =>
    intro m hframed hstatus hjets
    rw [loop]
    cases hs : m.context.stack.frame.work with
    | nil =>
      have hstep : step env recur m.tick = .panic := by
        simp [step, tick_stack, hs]
      rw [hstep]
      exact LoopSpec.of_panic
    | cons w rest =>
      obtain ⟨hjet, hnjets, hnext⟩ := (everyTurn_succ hs).mp hjets
      have hstatus' : m.context.tick.runningStatus.natAbs = base + 1 :=
        (tick_sameStatus m.context).trans hstatus
      have hframed' : Framed caller m.context.tick.stack.frame m.context.tick.stack.below := by
        rwa [tick_stack]
      have hs' : m.context.tick.stack.frame.work = w :: rest := by
        rwa [tick_stack]
      have hspec := stepWork_spec (m := m.tick) hs' hjet
        fun c1 s1 f1 c2 r hcall hok => (hrec.ok _ _ _ _ _ (hnjets _ _ _ hcall) hok).1
      rw [step_tick hs]
      refine LoopSpec.congr ?_ (everyTurn_succ hs)
      show LoopSpec caller snapshot base (CleanTurn env recur clean _ w _) _
      cases hw : stepWork env recur m.tick w with
      | panic => exact LoopSpec.of_panic
      | outOfFuel => exact LoopSpec.of_none
      | next m' =>
        rw [hw] at hspec
        refine LoopSpec.congr ?_ (cleanTurn_of_next hrec hnjets hw)
        exact ih m' (hframed'.turn hspec.1) (hspec.2.trans hstatus') (hnext m' hw)
      | brk c r =>
        rw [hw] at hspec
        cases r with
        | ok r => exact loopSpec_done hframed' hs' hstatus' hw hspec
        | error e => exact loopSpec_error hrec hframed' hstatus' hjet hnjets hw hspec
      | bail c e =>
        rw [hw] at hspec
        exact loopSpec_bail hrec hstatus' hnjets hw hspec

/-! ### Whole runs -/

/-- A cancelled start changes nothing but the counter's sign. -/
theorem exit_start {c : Context Cold Warm} :
    ∃ c' e', exit c.tick c.save c.stack.framePointer e = .err c' e' ∧ Restored c c' := by
  have hstop : NockStack.unwind c.stack.framePointer c.stack.frame c.stack.below
      = some c.stack := unwind_length _ _
  simp only [exit, restore, tick_stack, hstop]
  exact ⟨_, _, rfl, rfl, rfl, rfl, rfl, Int.natAbs_eq_natAbs_iff.mp (tick_sameStatus c)⟩

/-- The run's own frame, once its formula is pushed. -/
theorem framed_start {c : Context Cold Warm} {item : NockWork} (hitem : item.Plain) :
    Framed c.stack ((start c s).context.stack.push item).frame
      ((start c s).context.stack.push item).below := by
  have hbelow : ((start c s).context.stack.push item).below = c.stack.frame :: c.stack.below := by
    show c.tick.stack.frame :: c.tick.stack.below = _
    rw [tick_stack]
  rw [hbelow]
  exact .base [item] (by simpa using hitem) rfl

/-- A run that has started, from what is known of the runs nested in it. -/
theorem loopSpec_start {fuel : Nat}
    (ih : RunSpec (JetsBalanced env fuel) (NoEarlyReturn env fuel) (interpret env fuel))
    {c : Context Cold Warm} (hlive : 0 ≤ c.tick.runningStatus)
    (hjets : JetsBalanced env (fuel + 1) c s f) :
    LoopSpec c.stack c.save c.runningStatus.natAbs (NoEarlyReturn env (fuel + 1) c s f)
      (interpret env (fuel + 1) c s f) := by
  have hstatus : (start c s).context.runningStatus.natAbs = c.runningStatus.natAbs + 1 := by
    have htick := tick_sameStatus c
    unfold SameStatus at htick
    show (c.tick.runningStatus + 1).natAbs = _
    omega
  rw [interpret_succ hlive]
  cases hφ : Formula.of f with
  | none =>
    -- the formula cannot be pushed: an early return before the first turn
    rw [Machine.tryPush_of_none _ _ hφ]
    refine ⟨nofun, ?_, ?_⟩
    · intro c' e' _ hclean
      have hsome : (Formula.of f).isSome := (hclean hlive).1
      rw [hφ] at hsome
      cases hsome
    · intro c' e' ho _
      cases ho
      rw [hstatus]
      exact Nat.lt_succ_self _
  | some φ =>
    have hnext := Machine.tryPush_of_some (start c s) true hφ
    rw [hnext]
    have hloop := loop_spec c.save ih fuel
      ((start c s).setStack ((start c s).context.stack.push (φ.work true)))
      (framed_start (φ.work_isPlain true)) hstatus ((hjets hlive).2 _ hnext)
    refine LoopSpec.congr hloop ?_
    constructor
    · exact fun h => (h hlive).2 _ hnext
    intro h _
    refine ⟨show (Formula.of f).isSome = true by rw [hφ]; rfl, fun m hm => ?_⟩
    rw [hnext] at hm
    cases hm
    exact h

/-- What a run leaves behind, by induction on the nesting of runs. -/
theorem interpret_spec (env : Env Cold Warm) (fuel : Nat) :
    RunSpec (JetsBalanced env fuel) (NoEarlyReturn env fuel) (interpret env fuel) := by
  induction fuel with
  | zero => exact ⟨nofun, nofun, nofun⟩
  | succ fuel ih =>
    -- a run that is cancelled before it starts returns at once
    have hcancel : ∀ c s f, ¬ 0 ≤ c.tick.runningStatus →
        ∃ c' e', interpret env (fuel + 1) c s f = some (.err c' e') ∧ Restored c c' := by
      intro c s f hlive
      obtain ⟨c', e', hexit, hres⟩ := exit_start (c := c) (e := bailIntr)
      refine ⟨c', e', ?_, hres⟩
      rw [interpret]
      simp [if_pos (Int.not_le.mp hlive), hexit]
    refine ⟨?_, ?_, ?_⟩
    · intro c s f c' r hjets hok
      by_cases hlive : 0 ≤ c.tick.runningStatus
      · obtain ⟨⟨hstack, hst⟩, hclean⟩ := (loopSpec_start ih hlive hjets).ok c' r hok
        exact ⟨⟨hstack, hst⟩, hclean⟩
      · obtain ⟨_, _, herr, -⟩ := hcancel c s f hlive
        rw [hok] at herr
        cases herr
    · intro c s f c' e hjets herr hclean
      by_cases hlive : 0 ≤ c.tick.runningStatus
      · obtain ⟨⟨hstack, hsave⟩, hst⟩ :=
          (loopSpec_start ih hlive hjets).restored c' e herr hclean
        injection hsave with hcold hwarm hcache
        exact ⟨hstack, hcold, hwarm, hcache, Int.natAbs_eq_natAbs_iff.mp hst⟩
      · obtain ⟨_, _, herr', hres⟩ := hcancel c s f hlive
        rw [herr] at herr'
        cases herr'
        exact hres
    · intro c s f c' e hjets herr hunclean
      by_cases hlive : 0 ≤ c.tick.runningStatus
      · exact (loopSpec_start ih hlive hjets).leaked c' e herr hunclean
      · exact absurd (fun h => absurd h hlive) hunclean

/-- A run that restores its caller's context has not returned early. -/
theorem noEarlyReturn_of_restored {env : Env Cold Warm} {fuel : Nat}
    (hjets : JetsBalanced env fuel c s f)
    (herr : interpret env fuel c s f = some (.err c' e)) (hres : Restored c c') :
    NoEarlyReturn env fuel c s f := by
  by_contra hunclean
  have hlt := (interpret_spec env fuel).leaked c s f c' e hjets herr hunclean
  have heq := Int.natAbs_eq_natAbs_iff.mpr hres.status
  omega

/-- A failed run restores its caller's context exactly when neither it nor a
run nested in it returned early. -/
theorem restored_iff (env : Env Cold Warm) (fuel : Nat) (c : Context Cold Warm) (s f : Noun)
    (hjets : JetsBalanced env fuel c s f) (c' : Context Cold Warm) (e : Error)
    (herr : interpret env fuel c s f = some (.err c' e)) :
    Restored c c' ↔ NoEarlyReturn env fuel c s f := by
  constructor
  · exact noEarlyReturn_of_restored hjets herr
  · exact (interpret_spec env fuel).restored c s f c' e hjets herr

end

/-! ### Concrete runs -/

/-- What holds of every turn holds of every run. -/
theorem everyRun_of_forall {Cold Warm : Type} {env : Env Cold Warm} {E : Noun → Prop}
    {P : Recur Cold Warm → Machine Cold Warm → NockWork → Prop} (hE : ∀ f, E f)
    (hP : ∀ recur m w, P recur m w) (fuel : Nat) (c : Context Cold Warm) (s f : Noun) :
    EveryRun env E P fuel c s f := by
  induction fuel generalizing c s f with
  | zero => trivial
  | succ fuel ih =>
    have hturns : ∀ n m, EveryTurn env (interpret env fuel) (P (interpret env fuel))
        (EveryRun env E P fuel) n m := by
      intro n
      induction n with
      | zero => exact fun _ => trivial
      | succ n ihn =>
        exact fun m w _ _ => ⟨hP _ _ _, fun c s f _ => ih c s f, fun m' _ => ihn m'⟩
    exact fun _ => ⟨hE f, fun m _ => hturns fuel m⟩

theorem jetBalanced_plain (m : Machine Unit Unit) (w : NockWork) : JetBalanced Env.plain m w := by
  intro c hc
  unfold jetCall at hc
  split at hc
  · rename_i axis _ _
    have hnone : armJet Env.plain m axis = none := by
      unfold armJet
      split <;> rfl
    rw [hnone] at hc
    cases hc
  · split at hc <;> cases hc
  · split at hc
    · cases hc
      exact Balanced.refl _
    · cases hc
  · split at hc
    · cases hc
      exact Balanced.refl _
    · cases hc
  · cases hc

/-- Without jets, no jet leaves anything behind. -/
theorem jetsBalanced_plain (fuel : Nat) (c : Context Unit Unit) (s f : Noun) :
    JetsBalanced Env.plain fuel c s f :=
  everyRun_of_forall (fun _ => trivial) (fun _ => jetBalanced_plain) fuel c s f

/-- `[0 0]` fails through `break`. -/
theorem restored_iff_slot_zero :
    ∃ c' e, interpret Env.plain 3 Context.plain (.atom 0) (.cell (.atom 0) (.atom 0))
        = some (.err c' e) ∧ (Restored Context.plain c' ↔
        NoEarlyReturn Env.plain 3 Context.plain (.atom 0) (.cell (.atom 0) (.atom 0))) :=
  ⟨_, _, rfl, restored_iff _ _ _ _ _ (jetsBalanced_plain _ _ _ _) _ _ rfl⟩

/-- An atom is no formula. `interpret` returns `Err` with its frame still on the
stack and its run still on the counter. -/
theorem interpret_atom_not_restored :
    ∃ c' e, interpret Env.plain 3 Context.plain (.atom 0) (.atom 0) = some (.err c' e) ∧
      c'.stack.framePointer = Context.plain.stack.framePointer + 1 ∧
      c'.runningStatus = Context.plain.runningStatus + 1 ∧ ¬ Restored Context.plain c' := by
  refine ⟨_, _, rfl, rfl, rfl, ?_⟩
  intro hres
  have hstatus : (1 : Int) = 0 ∨ (1 : Int) = -0 := hres.status
  omega

end Nockchain.Vm
