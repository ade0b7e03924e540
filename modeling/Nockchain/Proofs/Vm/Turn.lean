import Nockchain.Proofs.Vm.Simulation

/-!
# `Nockchain.Proofs.Vm.Turn`: what one turn of the loop can do

The inversion lemma for `step`, over all work items, hints, jets and scries:
`stepWork_moves` says that a turn makes one of a few moves (`Move`), in the
context that the jet, `mook` or the nested call of the turn has handed back
(`Back`). What a turn keeps is read off the moves. Here it is the stack and the
running counter: `stepWork_spec` says, for each way a turn can end, what has
become of them:

* on to the next turn: the work of the current frame changed above its last
  item, or a frame was pushed for a call, or a `Ret` popped one (`StackTurn`);
* `break` with a result: a `Done` popped its frame;
* `break` with an error: the frames below are as they were, unless the error
  came out of a nested `interpret`;
* an early return: the counter is as it was, again unless a nested call
  returned the error.

A turn calls at most one jet (`jetCall`) and makes at most one nested call of
`interpret` (`nestedCall`). What these leave behind is a hypothesis here; the
loop invariant discharges it for nested calls.
-/

set_option autoImplicit false

namespace Nockchain.Vm

open Hint

section

variable {Cold Warm : Type}

/-! ### Calls out of a turn -/

/-- The arm a `Work9` turn has found, with the jet registered for it. -/
def armJet (env : Env Cold Warm) (m : Machine Cold Warm) (axis : Nat) :
    Option (Noun × Jet Cold Warm × Bool) :=
  match m.res.slot axis with
  | none => none
  | some formula =>
    match if env.shamHints then none else env.findJet m.context.warm m.res formula with
    | none => none
    | some (jet, test) => some (formula, jet, test)

/-- The context that the jet, or `mook`, called in the turn at `m` hands back. -/
def jetCall (env : Env Cold Warm) (m : Machine Cold Warm) : NockWork → Option (Context Cold Warm)
  | .work9 .computeResult axis _ _ =>
    (armJet env m axis).map fun arm => (arm.2.1 m.context m.res).1
  | .work11D .computeHint tag (.cell _ jetName) _ _ =>
    if tag = Noun.tas "sham" ∧ env.shamHints = true then
      (env.getJet jetName).map fun jet => (jet m.context m.subject).1
    else none
  | .work11D .computeResult tag _ _ _ | .work11S .computeResult tag _ _ =>
    if tag = Noun.tas "hela" then
      some (env.mook m.context (.cell (.atom 2) m.context.stack.frame.mean)).1
    else none
  | _ => none

/-- The context, subject and formula of the nested `interpret` of the turn at
`m`: the check of a jet under test, the body of a `%bout` hint, or the call of
a scry gate. -/
def nestedCall (env : Env Cold Warm) (m : Machine Cold Warm) :
    NockWork → Option (Context Cold Warm × Noun × Noun)
  | .work9 .computeResult axis _ _ =>
    match armJet env m axis with
    | some (formula, jet, true) =>
      match jet m.context m.res with
      | (context, .ok _) => some (context, m.res, formula)
      | _ => none
    | _ => none
  | .work11D .computeResult tag _ body _ | .work11S .computeResult tag body _ =>
    if tag = Noun.tas "bout" then some (m.context, m.subject, body) else none
  | .work12 .scry reff _ =>
    match m.context.scryStack with
    | .cell (.cell battery (.cell _ payload)) scryTail =>
      let core := .cell battery (.cell (.cell reff m.res) payload)
      some ({ (m.setTop (.work12 .scry reff m.res)).context with scryStack := scryTail },
        .atom 0, .cell (.atom 9) (.cell (.atom 2) (.cell (.atom 1) core)))
    | _ => none
  | _ => none

/-! ### What a turn does to the stack and the counter -/

/-- The counter is the same, up to a cancellation. -/
def SameStatus (c c' : Context Cold Warm) : Prop :=
  c'.runningStatus.natAbs = c.runningStatus.natAbs

/-- The stack and, up to a cancellation, the counter are the same. -/
structure Balanced (c c' : Context Cold Warm) : Prop where
  stack : c'.stack = c.stack
  status : SameStatus c c'

/-- The stack with another mean stack. -/
def NockStack.setMean (s : NockStack) (mean : Noun) : NockStack :=
  { s with frame := { s.frame with mean := mean } }

/-- The stack is the same but for the mean stack, which is the given one. -/
structure Kept (c c' : Context Cold Warm) (mean : Noun) : Prop where
  stack : c'.stack = c.stack.setMean mean
  status : SameStatus c c'

/-- Work that is neither `Done` nor `Ret`: work that stays in its frame. -/
def NockWork.isPlain : NockWork → Bool
  | .done => false
  | .ret => false
  | _ => true

/-- The work item is plain. -/
abbrev NockWork.Plain (w : NockWork) : Prop := w.isPlain = true

namespace NockWork

/-- The entry that the turn at an item pushes on the mean stack: the clue of a dynamic hint, which
is the last result. -/
def opens (res : Noun) : NockWork → Option Noun
  | .work11D .computeResult tag _ _ _ =>
    if isMean tag then some (.cell (.atom tag) res) else none
  | _ => none

/-- The entry that an item has pushed and waits to pop. -/
def entry : NockWork → Option Noun
  | .work11D .done tag clue _ _ =>
    if isMean tag then some (.cell (.atom tag) clue) else none
  | _ => none

/-- The turn at the item pops the mean stack. -/
def pops : NockWork → Bool
  | .work11D .done tag _ _ _ => isMean tag
  | .work11S .done tag _ _ => isMean tag
  | _ => false

/-- The item may stand at a height of its frame: it is marked as in tail position just where only
the `Ret` or `Done` of the frame is below it, and it waits for its last formula only elsewhere. -/
def Placed (height : Nat) : NockWork → Prop
  | .work2 _ _ _ tail => tail = decide (height = 1)
  | .work6 _ _ _ _ tail => tail = decide (height = 1)
  | .work7 _ _ _ tail => tail = decide (height = 1)
  | .work8 _ _ _ tail => tail = decide (height = 1)
  | .work9 _ _ _ tail => tail = decide (height = 1)
  | .work11D todo tag _ _ tail =>
    tail = (decide (height = 1) && isTail tag) ∧ (todo = .done → tail = false)
  | .work11S todo tag _ tail =>
    tail = (decide (height = 1) && isTail tag) ∧ (todo = .done → tail = false)
  | _ => True

/-- `w'` is a later phase of `w`, in its place. -/
structure Phase (res : Noun) (w w' : NockWork) : Prop where
  plain : w'.Plain
  placed : ∀ height, w.Placed height → w'.Placed height
  entry : w'.entry = w.opens res
  pops : w.pops = false

/-- The last formula of `w` is in tail position just where `w` is. -/
structure Last (w : NockWork) (tail : Bool) : Prop where
  tail : ∀ height, w.Placed height → tail = decide (height = 1)
  pops : w.pops = false

end NockWork

/-- The mean stack with an entry, if there is one. -/
def pushMean (entry : Option Noun) (mean : Noun) : Noun := entry.elim mean (.cell · mean)

/-- What takes the place of the topmost item, and what becomes of the mean stack. -/
inductive WorkTurn (res : Noun) (top : NockWork) (mean mean' : Noun) : List NockWork → Prop where
  /-- the item waits in its next phase for the value of a formula -/
  | operand {w' : NockWork} (φ : Formula) (phase : top.Phase res w')
      (hmean : mean' = pushMean (top.opens res) mean) :
      WorkTurn res top mean mean' [φ.work false, w']
  /-- the item's last formula takes its place -/
  | last {tail : Bool} (φ : Formula) (last : top.Last tail)
      (hopens : (top.opens res).isSome → tail = true)
      (hmean : mean' = pushMean (top.opens res) mean) : WorkTurn res top mean mean' [φ.work tail]
  /-- the item is done -/
  | finish (hopens : top.opens res = none)
      (hmean : if top.pops then ∃ entry, mean = .cell entry mean' else mean' = mean) :
      WorkTurn res top mean mean' []

/-- What a turn that leads to another turn does to the stack. -/
inductive StackTurn (res : Noun) (s s' : NockStack) : Prop where
  /-- the topmost item is replaced by other plain items -/
  | work (top : NockWork) (rest ws : List NockWork) (hs : s.frame.work = top :: rest)
      (htop : top.Plain) (hs' : s'.frame.work = ws ++ rest) (hws : ∀ w ∈ ws, w.Plain)
      (hbelow : s'.below = s.below) (hturn : WorkTurn res top s.frame.mean s'.frame.mean ws)
  /-- the topmost item waits while a formula runs in a new frame -/
  | call (top : NockWork) (φ : Formula) (rest : List NockWork) (frame : Frame) (w : NockWork)
      (hs : s.frame.work = top :: rest) (htop : top.Plain) (hframe : frame.work = w :: rest)
      (hw : top.Phase res w) (hopens : top.opens res = none)
      (hs' : s'.frame.work = [φ.work true, .ret]) (hbelow : s'.below = frame :: s.below)
      (hmean : frame.mean = s.frame.mean) (hmean' : s'.frame.mean = s.frame.mean)
  /-- `Ret` pops its frame -/
  | ret (rest : List NockWork) (hs : s.frame.work = .ret :: rest) (hpop : s.framePop = some s')

/-- What a turn at work item `w` may end in. -/
def TurnSpec (env : Env Cold Warm) (recur : Recur Cold Warm) (m : Machine Cold Warm)
    (w : NockWork) : Step Cold Warm → Prop
  | .next m' => StackTurn m.res m.context.stack m'.context.stack ∧
      SameStatus m.context m'.context
  | .brk c (.ok _) => w = .done ∧ m.context.stack.framePop = some c.stack ∧
      SameStatus m.context c
  | .brk c (.error _) =>
    (∃ rest, c.stack = m.context.stack.setWork rest ∧ SameStatus m.context c) ∨
    (∃ c₁ s₁ f₁ e₁, nestedCall env m w = some (c₁, s₁, f₁) ∧ Balanced m.context c₁ ∧
      recur c₁ s₁ f₁ = some (.err c e₁))
  | .bail c _ =>
    SameStatus m.context c ∨
    (∃ c₁ s₁ f₁ e₁, nestedCall env m w = some (c₁, s₁, f₁) ∧ SameStatus m.context c₁ ∧
      recur c₁ s₁ f₁ = some (.err c e₁))
  | .panic => True
  | .outOfFuel => True

theorem Balanced.kept {c c' : Context Cold Warm} (h : Balanced c c') :
    Kept c c' c.stack.frame.mean :=
  ⟨h.stack, h.status⟩

theorem Balanced.refl (c : Context Cold Warm) : Balanced c c := ⟨rfl, rfl⟩

theorem Kept.refl (c : Context Cold Warm) : Kept c c c.stack.frame.mean := (Balanced.refl c).kept

/-- A formula is never pushed as `Done` or `Ret`. -/
theorem Formula.work_isPlain (φ : Formula) (tail : Bool) : (φ.work tail).Plain := by
  cases φ <;> rfl

/-- Pushing a formula adds one plain item, or returns early. -/
theorem tryPush_cases (m : Machine Cold Warm) (f : Noun) (tail : Bool) :
    (∃ φ : Formula, m.tryPush f tail = .next (m.setStack (m.context.stack.push (φ.work tail)))) ∨
    m.tryPush f tail = .bail m.context bailExit := by
  unfold Machine.tryPush
  rw [pushFormula_eq]
  cases Formula.of f with
  | none => exact .inr rfl
  | some φ => exact .inl ⟨φ, rfl⟩

/-! ### The moves of a turn -/

/-- The mean stack at a turn. -/
abbrev Machine.mean (m : Machine Cold Warm) : Noun := m.context.stack.frame.mean

/-- The jet that a turn calls, and the core it is called with. -/
def jetAt (env : Env Cold Warm) (m : Machine Cold Warm) : NockWork → Option (Jet Cold Warm × Noun)
  | .work9 .computeResult axis _ _ => (armJet env m axis).map fun arm => (arm.2.1, m.res)
  | .work11D .computeHint tag (.cell _ jetName) _ _ =>
    if tag = Noun.tas "sham" ∧ env.shamHints = true then
      (env.getJet jetName).map fun jet => (jet, m.subject)
    else none
  | _ => none

/-- The item calls a scry handler. -/
def NockWork.isScry : NockWork → Bool
  | .work12 .scry _ _ => true
  | _ => false

/-- The error is not that of a scry gate. -/
def Error.isOwn : Error → Bool
  | .scryCrashed _ => false
  | _ => true

section

variable (env : Env Cold Warm) (recur : Recur Cold Warm) (m : Machine Cold Warm) (w : NockWork)

/-- The contexts that a turn goes on with, and their mean stacks: its own, with another mean stack
perhaps, and those that a jet, `mook` or a nested call hands back. -/
inductive Back : Context Cold Warm → Noun → Prop where
  | own {c : Context Cold Warm} {mean : Noun} (hkept : Kept m.context c mean)
      (hscry : c.scryStack = m.context.scryStack) : Back c mean
  | ok {jet : Jet Cold Warm} {core r : Noun} {c : Context Cold Warm}
      (hjet : jetAt env m w = some (jet, core)) (hres : jet m.context core = (c, .ok r)) :
      Back c m.mean
  | punt {jet : Jet Cold Warm} {core : Noun} {c : Context Cold Warm}
      (hjet : jetAt env m w = some (jet, core)) (hres : jet m.context core = (c, .punt)) :
      Back c m.mean
  | mook {tone : Noun} (hcall : jetCall env m w = some (env.mook m.context tone).1) :
      Back (env.mook m.context tone).1 m.mean
  | nested {c₁ c₂ : Context Cold Warm} {s₁ f₁ r : Noun} (hc : Back c₁ m.mean)
      (hcall : nestedCall env m w = some (c₁, s₁, f₁)) (hout : recur c₁ s₁ f₁ = some (.ok c₂ r)) :
      Back c₂ m.mean

/-- The errors that a turn outside a scry leaves the loop with: its own, perhaps with the topmost
item changed already, that of a jet, and that of a nested call. -/
inductive Fails : Context Cold Warm → Error → Prop where
  | own {c : Context Cold Warm} {e : Error} (hc : Back env recur m w c m.mean)
      (ws : List NockWork) (hws : NockWork.ret ∈ ws → NockWork.ret ∈ c.stack.frame.work)
      (he : e.isOwn = true) : Fails { c with stack := c.stack.setWork ws } e
  | jet {jet : Jet Cold Warm} {core : Noun} {c : Context Cold Warm} {e : Error}
      (hjet : jetAt env m w = some (jet, core)) (hres : jet m.context core = (c, .fail e)) :
      Fails c e
  | nested {c₁ c₂ : Context Cold Warm} {s₁ f₁ : Noun} {e : Error}
      (hc : Back env recur m w c₁ m.mean) (hscry : w.isScry = false)
      (hcall : nestedCall env m w = some (c₁, s₁, f₁)) (hout : recur c₁ s₁ f₁ = some (.err c₂ e)) :
      Fails c₂ e

/-- The moves that a turn at the topmost item `w` can make. -/
inductive Move : Step Cold Warm → Prop where
  /-- the item waits in its next phase for an operand -/
  | operand {c : Context Cold Warm} {w' : NockWork} {s f : Noun}
      (hc : Back env recur m w c (pushMean (w.opens m.res) m.mean))
      (hphase : w.Phase m.res w' := by exact ⟨rfl, fun _ h => h, rfl, rfl⟩)
      (hw : w.Plain := by rfl) : Move ({ { m with context := c }.setTop w' with subject := s }.tryPush f false)
  /-- its last formula takes its place -/
  | last {c : Context Cold Warm} {tail : Bool} {s f : Noun}
      (hc : Back env recur m w c (pushMean (w.opens m.res) m.mean))
      (hlast : w.Last tail) (hopens : (w.opens m.res).isSome → tail = true)
      (hw : w.Plain := by rfl) :
      Move ({ { m with context := c }.pop with subject := s }.tryPush f tail)
  /-- it is done -/
  | finish {c : Context Cold Warm} {mean s r : Noun} (hc : Back env recur m w c mean)
      (hopens : w.opens m.res = none)
      (hmean : if w.pops then ∃ entry, m.mean = .cell entry mean
        else mean = m.mean) (hw : w.Plain := by rfl) :
      Move (.next { { m with context := c }.pop with subject := s, res := r })
  /-- it waits while a formula runs in a frame of its own -/
  | call {c : Context Cold Warm} {w' : NockWork} {s f : Noun}
      (hc : Back env recur m w c m.mean) (hopens : w.opens m.res = none)
      (hphase : w.Phase m.res w' := by exact ⟨rfl, fun _ h => h, rfl, rfl⟩)
      (hw : w.Plain := by rfl) : Move (({ m with context := c }.setTop w').callInFrame s f)
  | ret {stack : NockStack} (hw : w = .ret) (hpop : m.context.stack.framePop = some stack) :
      Move (.next (m.setStack stack))
  | done {stack : NockStack} {r : Noun} (hw : w = .done)
      (hpop : m.context.stack.framePop = some stack) : Move (.brk (m.setStack stack).context (.ok r))
  | brk {c : Context Cold Warm} {e : Error} (hfails : Fails env recur m w c e) :
      Move (.brk c (.error e))
  | bail {c : Context Cold Warm} {e : Error} (hfails : Fails env recur m w c e) : Move (.bail c e)
  /-- a scry gate has answered -/
  | scry {reff path handler tail s₁ f₁ : Noun} {out : Outcome Cold Warm}
      (hw : w = .work12 .scry reff path) (hss : m.context.scryStack = .cell handler tail)
      (hcall : nestedCall env m w = some
        ({ (m.setTop (.work12 .scry reff m.res)).context with scryStack := tail }, s₁, f₁))
      (hout : recur { (m.setTop (.work12 .scry reff m.res)).context with scryStack := tail } s₁ f₁
        = some out) :
      Move (scryAnswer (m.setTop (.work12 .scry reff m.res)) m.context.scryStack reff m.res out)
  | panic : Move .panic
  | outOfFuel : Move .outOfFuel

end

variable {env : Env Cold Warm} {recur : Recur Cold Warm} {m : Machine Cold Warm}
  {w : NockWork} {rest : List NockWork} {tag : Nat} {tail : Bool}

theorem Back.here : Back env recur m w m.context m.mean :=
  .own (Kept.refl _) rfl

theorem Fails.here {c : Context Cold Warm} {e : Error}
    (hc : Back env recur m w c m.mean) (he : e.isOwn) : Fails env recur m w c e :=
  .own hc c.stack.frame.work id he

theorem ret_mem_of_cons {w : NockWork} (hw : w.Plain) (h : NockWork.ret ∈ w :: rest) :
    NockWork.ret ∈ rest := by
  rcases List.mem_cons.1 h with rfl | h
  · cases hw
  · exact h

theorem mem_work_of_setTop {s : NockStack} {w : NockWork} (hw : w.Plain)
    (h : NockWork.ret ∈ w :: s.frame.work.tail) : NockWork.ret ∈ s.frame.work :=
  List.mem_of_mem_tail (ret_mem_of_cons hw h)

/-! ### Hints -/

/-- What a hint function hands back to the turn at work item `w`. -/
def HintMoves (env : Env Cold Warm) (recur : Recur Cold Warm) (m : Machine Cold Warm)
    (w : NockWork) : HintResult Cold Warm → Prop
  | .pass c => Back env recur m w c (pushMean (w.opens m.res) m.mean)
  | .found c (.ok _) => Back env recur m w c m.mean ∧ w.opens m.res = none
  | .found c (.error e) => Fails env recur m w c e
  | .panic => True
  | .outOfFuel => True

variable {body core : Noun}

/-- A dynamic hint before its body: `%memo` may have found the result, the others go on. -/
theorem matchPreHint_moves {hint : Noun} :
    HintMoves env recur m (.work11D .computeHint tag hint body tail)
      (matchPreHint env recur m.context m.subject tag hint body) := by
  unfold matchPreHint
  split
  · -- `%sham`
    rename_i hsham
    split
    · rename_i hon
      cases hint with
      | atom a => exact .here
      | cell h jetName =>
        cases hj : env.getJet jetName with
        | none =>
          simp only [hj]
          exact .here
        | some jet =>
          have hjet : jetAt env m (.work11D .computeHint tag (.cell h jetName) body tail)
              = some (jet, m.subject) := by
            simp [jetAt, hsham, hon, hj]
          simp only [hj]
          match hr : jet m.context m.subject with
          | (c, .ok n) => exact ⟨.ok hjet hr, rfl⟩
          | (c, .punt) => exact .punt hjet hr
          | (c, .fail e) => exact .jet hjet hr
          | (c, .panic) => trivial
    · exact .here
  · split
    · -- `%memo`
      cases m.context.cache.lookup (m.subject.cell body) with
      | none => exact .here
      | some found => exact ⟨.here, rfl⟩
    · exact .here

/-- The hypotheses say what the work item `w` contributes: its entry, its `mook` call and its nested
call are those of the hint. -/
theorem matchPreNock_moves {hint : Option (Noun × Noun)} (hopens : w.opens m.res =
      if isMean tag then hint.map fun clue => .cell (.atom tag) clue.2 else none)
    (hmook : tag = Noun.tas "hela" → jetCall env m w
      = some (env.mook m.context (.cell (.atom 2) m.mean)).1)
    (hbout : tag = Noun.tas "bout" → nestedCall env m w = some (m.context, m.subject, body))
    (hscry : w.isScry = false) :
    HintMoves env recur m w (matchPreNock env recur m.context m.subject tag hint body) := by
  have hpass : isMean tag = false → w.opens m.res = none := by
    intro hmean
    rw [hopens, hmean]
    rfl
  have hsame : ∀ c, w.opens m.res = none → Back env recur m w c m.mean →
      HintMoves env recur m w (.pass c) := by
    intro c hnone hc
    show Back env recur m w c (pushMean (w.opens m.res) m.mean)
    rwa [hnone]
  unfold matchPreNock
  split
  case isTrue htag =>
    split
    · exact .here .here rfl
    · exact hsame _ (hpass (by rw [htag]; rfl)) .here
  split
  case isTrue htag =>
    match hr : recur m.context m.subject body with
    | none | some .panic => trivial
    | some (.ok c r) => exact ⟨.nested .here (hbout htag) hr, hpass (by rw [htag]; rfl)⟩
    | some (.err c e) => exact .nested .here hscry (hbout htag) hr
  split
  case isTrue hmean =>
    cases hint with
    | none => exact hsame _ (by rw [hopens, hmean]; rfl) .here
    | some clue =>
      show Back _ _ _ _ _ (pushMean (w.opens m.res) m.mean)
      rw [hopens, hmean]
      exact .own ⟨rfl, rfl⟩ rfl
  case isFalse hmean =>
    have hnone := hpass (by simpa using hmean)
    split_ifs with htag
    · have hback : Back env recur m w _ _ := .mook (hmook htag)
      match hr : env.mook m.context (.cell (.atom 2) m.mean) with
      | (c, .error e) => trivial
      | (c, .ok head) =>
        rw [hr] at hback
        show HintMoves env recur m w (if head = .atom 2 then .pass c else .panic)
        split
        · exact hsame c hnone hback
        · trivial
    · exact hsame _ hnone .here

/-- `match_post_nock` pops the mean stack for the tags that push on it, and leaves it alone
otherwise. -/
theorem matchPostNock_back {subject : Noun} {hint : Option Noun} {res : Noun}
    {c : Context Cold Warm}
    (h : matchPostNock env m.context subject tag hint body res = some c) :
    ∃ mean, Back env recur m w c mean ∧
      if isMean tag then ∃ entry, m.mean = .cell entry mean else mean = m.mean := by
  have hsame : ∀ c, isMean tag = false → Back env recur m w c m.mean →
      ∃ mean, Back env recur m w c mean ∧
        if isMean tag then ∃ entry, m.mean = .cell entry mean else mean = m.mean := by
    intro c hmean hc
    exact ⟨_, hc, by rw [hmean]; rfl⟩
  unfold matchPostNock at h
  split at h
  case isTrue htag =>
    cases h
    exact hsame _ (by rw [htag]; rfl) (.own ⟨rfl, rfl⟩ rfl)
  split at h
  case isTrue hmean =>
    obtain ⟨stack, hpop, rfl⟩ := Option.map_eq_some_iff.1 h
    unfold NockStack.meanPop at hpop
    split at hpop
    · rename_i entry mean hcell
      cases hpop
      exact ⟨mean, .own ⟨rfl, rfl⟩ rfl, by rw [if_pos hmean]; exact ⟨entry, hcell⟩⟩
    · cases hpop
  case isFalse hmean =>
    refine hsame c (by simpa using hmean) ?_
    split at h
    · split at h
      · cases h
        exact .here
      split at h
      · cases h
        exact .here
      split at h <;> cases h <;> exact .own ⟨rfl, rfl⟩ rfl
    · cases h
      exact .here

/-- After a hint function: its result ends the item, or its error the loop, or the item goes on. -/
theorem HintMoves.continue {res : HintResult Cold Warm} (hw : w.Plain) (hpops : w.pops = false)
    {onPass : Context Cold Warm → Step Cold Warm}
    (hpass : ∀ c, Back env recur m w c (pushMean (w.opens m.res) m.mean) →
      Move env recur m w (onPass c)) :
    HintMoves env recur m w res → Move env recur m w (match res with
      | .found context (.ok found) => { m with context := context }.finish found
      | .found context (.error error) => .brk context (.error error)
      | .panic => .panic
      | .outOfFuel => .outOfFuel
      | .pass context => onPass context) := by
  intro h
  match res with
  | .found c (.ok found) => exact .finish h.1 h.2 (by rw [hpops]; rfl) hw
  | .found c (.error e) => exact .brk h
  | .panic => exact .panic
  | .outOfFuel => exact .outOfFuel
  | .pass c => exact hpass c h

/-! ### Arms of the loop -/

/-- Calling an arm, in a context the jet may have changed. -/
theorem callArm_moves {axis : Nat} {formula : Noun} {c : Context Cold Warm}
    (hc : Back env recur m (.work9 .computeResult axis core tail) c m.mean) :
    Move env recur m (.work9 .computeResult axis core tail)
      (callArm { m with context := c } axis tail formula) := by
  unfold callArm
  cases tail with
  | true => exact .last hc ⟨fun _ h => h, rfl⟩ nofun
  | false => exact .call hc rfl

/-- The turns of a Nock 9, with the jet that may stand in for the call. -/
theorem stepWork9_moves {todo : Todo9} {axis : Nat} : Move env recur m (.work9 todo axis core tail)
      (stepWork9 env recur m todo axis core tail) := by
  cases todo with
  | computeCore => exact .operand .here
  | restoreSubject => exact .finish .here rfl rfl
  | computeResult =>
    cases hf : m.res.slot axis with
    | none =>
      simp only [stepWork9, hf]
      exact .brk (.here .here rfl)
    | some formula =>
      cases hj : if env.shamHints then none else env.findJet m.context.warm m.res formula with
      -- No jet: the arm is called.
      | none =>
        simp only [stepWork9, hf, hj]
        exact callArm_moves .here
      | some arm =>
        obtain ⟨jet, test⟩ := arm
        have harm : armJet env m axis = some (formula, jet, test) := by
          simp [armJet, hf, hj]
        have hjet : jetAt env m (.work9 .computeResult axis core tail) = some (jet, m.res) := by
          simp [jetAt, harm]
        simp only [stepWork9, hf, hj]
        match hr : jet m.context m.res with
        | (c, .punt) => exact callArm_moves (.punt hjet hr)
        | (c, .fail e) => exact .brk (.jet hjet hr)
        | (c, .panic) => exact .panic
        | (c, .ok jetRes) =>
          have hback : Back env recur m _ c m.mean := .ok hjet hr
          cases test with
          | false => exact .finish hback rfl rfl
          | true =>
            -- the jet is run against its formula
            have hcall : nestedCall env m (.work9 .computeResult axis core tail)
                = some (c, m.res, formula) := by
              simp [nestedCall, harm, hr]
            simp only [if_true]
            match ho : recur c m.res formula with
            | none => exact .outOfFuel
            | some .panic => exact .panic
            | some (.err c2 e) => exact .bail (.nested hback rfl hcall ho)
            | some (.ok c2 testRes) =>
              have hback' := Back.nested hback hcall ho
              simp only
              split
              · exact .finish hback' rfl rfl
              · exact .brk (.here hback' rfl)

/-- Where a hint has its body in tail position. -/
theorem last_of_hint {w : NockWork} (hpops : w.pops = false)
    (hplaced : ∀ height, w.Placed height → true = (decide (height = 1) && isTail tag)) :
    w.Last true where
  tail height hw := by
    have h := (Bool.and_eq_true_iff.1 (hplaced height hw).symm).1
    exact h.symm
  pops := hpops

/-- The turns of a dynamic hint. -/
theorem stepWork11D_moves {todo : Todo11D} {hint : Noun} :
    Move env recur m (.work11D todo tag hint body tail)
      (stepWork11D env recur m todo tag hint body tail) := by
  cases todo with
  | computeHint =>
    refine HintMoves.continue rfl rfl (fun c hc => ?_) matchPreHint_moves
    exact .operand hc ⟨rfl, fun _ h => ⟨h.1, nofun⟩, rfl, rfl⟩
  | computeResult =>
    refine HintMoves.continue rfl rfl (fun c hc => ?_) (matchPreNock_moves rfl
      (fun htag => if_pos htag) (fun htag => if_pos htag) rfl)
    cases tail with
    | true => exact .last hc (last_of_hint rfl fun _ h => h.1) fun _ => rfl
    | false => exact .operand hc ⟨rfl, fun _ h => ⟨h.1, fun _ => rfl⟩, rfl, rfl⟩
  | done =>
    unfold stepWork11D
    cases hr : matchPostNock env m.context m.subject tag (some hint) body m.res with
    | none => exact .panic
    | some c =>
      obtain ⟨mean, hc, hmean⟩ := matchPostNock_back hr
      exact .finish hc rfl hmean

/-- The turns of a static hint. -/
theorem stepWork11S_moves {todo : Todo11S} : Move env recur m (.work11S todo tag body tail)
      (stepWork11S env recur m todo tag body tail) := by
  cases todo with
  | computeResult =>
    refine HintMoves.continue rfl rfl (fun c hc => ?_) (matchPreNock_moves (by simp [NockWork.opens])
      (fun htag => if_pos htag) (fun htag => if_pos htag) rfl)
    simp only [pushFormula_eq]
    cases hφ : Formula.of body with
    | none =>
      -- the body cannot be pushed, and the item has changed already
      cases tail with
      | true => exact .brk (.own hc _ List.mem_of_mem_tail rfl)
      | false => exact .brk (.own hc _ (mem_work_of_setTop rfl) rfl)
    | some φ =>
      -- the same as `try_or_bail!` from here on
      simp only [← Machine.tryPush_of_some _ _ hφ]
      cases tail with
      | true => exact .last hc (last_of_hint rfl fun _ h => h.1) fun _ => rfl
      | false => exact .operand hc ⟨rfl, fun _ h => ⟨h.1, fun _ => rfl⟩, rfl, rfl⟩
  | done =>
    unfold stepWork11S
    cases hr : matchPostNock env m.context m.subject tag none body m.res with
    | none => exact .panic
    | some c =>
      obtain ⟨mean, hc, hmean⟩ := matchPostNock_back hr
      exact .finish hc rfl hmean

theorem stepWork12_moves {todo : Todo12} {reff path : Noun} :
    Move env recur m (.work12 todo reff path) (stepWork12 recur m todo reff path) := by
  cases todo with
  | computeReff | computePath => exact .operand .here
  | scry =>
    simp only [stepWork12]
    split
    · exact .bail (.here .here rfl)
    · rename_i battery sample payload scryTail hss
      split
      · exact .outOfFuel
      · rename_i out hout
        exact .scry rfl hss (by simp [nestedCall, hss]) hout
    · exact .bail (.own .here _ (mem_work_of_setTop rfl) rfl)

/-- One turn makes one of the moves, whatever its work item. -/
theorem stepWork_moves : Move env recur m w (stepWork env recur m w) := by
  match w with
  | .done =>
    simp only [stepWork, popFrame]
    cases hpop : m.context.stack.framePop with
    | none => exact .panic
    | some stack => exact .done rfl hpop
  | .ret =>
    simp only [stepWork, popFrame]
    cases hpop : m.context.stack.framePop with
    | none => exact .panic
    | some stack => exact .ret rfl hpop
  | .workCons .computeHead _ _ | .workCons .computeTail _ _ => exact .operand .here
  | .workCons .cons _ _ => exact .finish .here rfl rfl
  | .work0 axis =>
    simp only [stepWork]
    cases m.subject.slot axis with
    | none => exact .brk (.here .here rfl)
    | some n => exact .finish .here rfl rfl
  | .work1 _ => exact .finish .here rfl rfl
  | .work2 .computeSubject _ _ _ | .work2 .computeFormula _ _ _ => exact .operand .here
  | .work2 .computeResult _ _ true => exact .last .here ⟨fun _ h => h, rfl⟩ fun h => absurd h Bool.false_ne_true
  | .work2 .computeResult _ _ false => exact .call .here rfl
  | .work2 .restoreSubject _ _ _ => exact .finish .here rfl rfl
  | .work3 .computeChild _ => exact .operand .here
  | .work3 .computeType _ => exact .finish .here rfl rfl
  | .work4 .computeChild _ => exact .operand .here
  | .work4 .increment _ =>
    simp only [stepWork]
    split
    · exact .finish .here rfl rfl
    · exact .brk (.here .here rfl)
  | .work5 .computeLeftChild _ _ | .work5 .computeRightChild _ _ => exact .operand .here
  | .work5 .testEquals _ _ => exact .finish .here rfl rfl
  | .work6 .computeTest _ _ _ _ => exact .operand .here
  | .work6 .computeBranch _ _ _ _ =>
    simp only [stepWork]
    split
    · exact .last .here ⟨fun _ h => h, rfl⟩ fun h => absurd h Bool.false_ne_true
    · exact .last .here ⟨fun _ h => h, rfl⟩ fun h => absurd h Bool.false_ne_true
    · exact .brk (.own .here _ List.mem_of_mem_tail rfl)
  | .work7 .computeSubject _ _ _ => exact .operand .here
  | .work7 .computeResult _ _ true => exact .last .here ⟨fun _ h => h, rfl⟩ fun h => absurd h Bool.false_ne_true
  | .work7 .computeResult _ _ false => exact .operand .here
  | .work7 .restoreSubject _ _ _ => exact .finish .here rfl rfl
  | .work8 .computeSubject _ _ _ => exact .operand .here
  | .work8 .computeResult _ _ true => exact .last .here ⟨fun _ h => h, rfl⟩ fun h => absurd h Bool.false_ne_true
  | .work8 .computeResult _ _ false => exact .operand .here
  | .work8 .restoreSubject _ _ _ => exact .finish .here rfl rfl
  | .work9 _ _ _ _ => exact stepWork9_moves
  | .work10 .computeTree _ _ _ | .work10 .computePatch _ _ _ => exact .operand .here
  | .work10 .edit axis tree _ =>
    simp only [stepWork]
    cases edit axis m.res tree with
    | none => exact .panic
    | some n => exact .finish .here rfl rfl
  | .work11D _ _ _ _ _ => exact stepWork11D_moves
  | .work11S _ _ _ _ => exact stepWork11S_moves
  | .work12 _ _ _ => exact stepWork12_moves


/-! ### What the moves do to the stack and the counter -/

/-- The jet, if the turn calls one, hands back the stack and the counter. -/
def JetBalanced (env : Env Cold Warm) (m : Machine Cold Warm) (w : NockWork) : Prop :=
  ∀ c, jetCall env m w = some c → Balanced m.context c

/-- A nested call that returns `Ok` hands back the stack and the counter. -/
def NestedBalanced (env : Env Cold Warm) (recur : Recur Cold Warm) (m : Machine Cold Warm)
    (w : NockWork) : Prop :=
  ∀ c₁ s₁ f₁ c₂ r, nestedCall env m w = some (c₁, s₁, f₁) →
    recur c₁ s₁ f₁ = some (.ok c₂ r) → Balanced c₁ c₂

variable {c : Context Cold Warm} {mean : Noun}

theorem jetCall_of_jetAt {jet : Jet Cold Warm} {r : JetResult}
    (h : jetAt env m w = some (jet, core)) (hres : jet m.context core = (c, r)) :
    jetCall env m w = some c := by
  have hfst : (jet m.context core).1 = c := congrArg Prod.fst hres
  unfold jetAt at h
  split at h
  · obtain ⟨arm, harm, heq⟩ := Option.map_eq_some_iff.1 h
    cases heq
    simp [jetCall, harm, hfst]
  · split at h
    · rename_i hon
      obtain ⟨jet, hget, heq⟩ := Option.map_eq_some_iff.1 h
      cases heq
      simp [jetCall, hon, hget, hfst]
    · cases h
  · cases h

section Balanced

variable (hjet : JetBalanced env m w) (hnest : NestedBalanced env recur m w)
include hjet hnest

/-- The turn goes on with the stack and the counter it had. -/
theorem Back.kept (h : Back env recur m w c mean) : Kept m.context c mean := by
  induction h with
  | own hkept hscry => exact hkept
  | ok hat hres | punt hat hres => exact (hjet _ (jetCall_of_jetAt hat hres)).kept
  | mook hcall => exact (hjet _ hcall).kept
  | nested hc hcall hout ih =>
    have hb := hnest _ _ _ _ _ hcall hout
    exact ⟨hb.stack.trans ih.stack, hb.status.trans ih.status⟩

theorem Back.balanced (h : Back env recur m w c m.mean) : Balanced m.context c :=
  ⟨(h.kept hjet hnest).stack, (h.kept hjet hnest).status⟩

/-- An error leaves the frames below as they were, unless it is that of a nested call. -/
theorem Fails.spec {e : Error} (h : Fails env recur m w c e) :
    TurnSpec env recur m w (.brk c (.error e)) := by
  cases h with
  | own hc ws hws he =>
    have hb := hc.balanced hjet hnest
    exact .inl ⟨ws, by rw [hb.stack], hb.status⟩
  | jet hat hres =>
    have hb := hjet _ (jetCall_of_jetAt hat hres)
    exact .inl ⟨c.stack.frame.work, by rw [hb.stack]; rfl, hb.status⟩
  | nested hc hscry hcall hout =>
    exact .inr ⟨_, _, _, _, hcall, hc.balanced hjet hnest, hout⟩

end Balanced

/-- On a stack that is kept, the items `ws` take the place of the topmost one. -/
theorem Kept.turn (ws : List NockWork) (hkept : Kept m.context c mean)
    (hs : m.context.stack.frame.work = w :: rest) (hw : w.Plain) (hws : ∀ w ∈ ws, w.Plain)
    (hturn : WorkTurn m.res w m.mean mean ws) :
    StackTurn m.res m.context.stack (c.stack.setWork (ws ++ c.stack.frame.work.tail)) := by
  rw [hkept.stack]
  refine .work w rest ws hs hw ?_ hws rfl hturn
  show ws ++ m.context.stack.frame.work.tail = _
  rw [hs]
  rfl

variable {c₁ : Context Cold Warm} {s₁ f₁ : Noun}

/-- Whatever the scry gate answers: on with its noun, or an early return. -/
theorem scryAnswer_spec {w' : NockWork} {m' : Machine Cold Warm} {scryStack reff path : Noun}
    {out : Outcome Cold Warm} {reff0 path0 : Noun}
    (hs : m.context.stack.frame.work = .work12 .scry reff0 path0 :: rest)
    (hcall : nestedCall env m w = some (c₁, s₁, f₁))
    (hstack : c₁.stack = m.context.stack.setTop w') (hstatus : SameStatus m.context c₁)
    (hnest : NestedBalanced env recur m w) (hout : recur c₁ s₁ f₁ = some out) :
    TurnSpec env recur m w (scryAnswer m' scryStack reff path out) := by
  have hok : ∀ c r, out = .ok c r → Balanced c₁ c :=
    fun c r h => hnest _ _ _ _ _ hcall (h ▸ hout)
  cases out with
  | panic => trivial
  | err c e =>
    cases e <;> exact .inr ⟨_, _, _, _, hcall, hstatus, hout⟩
  | ok c r =>
    have hb := hok c r rfl
    have hsame : SameStatus m.context c := hb.status.trans hstatus
    match r with
    | .atom 0 | .atom (_ + 1) | .cell _ (.atom _) => exact .inl hsame
    | .cell _ (.cell _ res) =>
      refine ⟨.work _ rest [] hs rfl ?_ (by simp) ?_ (.finish rfl ?_), hsame⟩
      · show c.stack.frame.work.tail = _
        rw [hb.stack, hstack]
        show m.context.stack.frame.work.tail = _
        rw [hs]
        rfl
      · show c.stack.below = _
        rw [hb.stack, hstack]
        rfl
      · show c.stack.frame.mean = _
        rw [hb.stack, hstack]
        rfl

/-- What one turn can do, over all work items. -/
theorem stepWork_spec (hs : m.context.stack.frame.work = w :: rest)
    (hjet : JetBalanced env m w) (hnest : NestedBalanced env recur m w) :
    TurnSpec env recur m w (stepWork env recur m w) := by
  generalize hstep : stepWork env recur m w = step
  have hmove : Move env recur m w step := hstep ▸ stepWork_moves
  cases hmove with
  | @operand c w' s f hc hphase hw =>
    have hkept := hc.kept hjet hnest
    rcases tryPush_cases { { m with context := c }.setTop w' with subject := s } f false with
      ⟨φ, hnext⟩ | hbail
    · rw [hnext]
      refine ⟨hkept.turn [φ.work false, w'] hs hw ?_ (.operand φ hphase rfl),
        hkept.status⟩
      intro x hx
      rcases List.mem_cons.1 hx with rfl | hx
      · exact φ.work_isPlain false
      · rw [List.mem_singleton.1 hx]
        exact hphase.plain
    · rw [hbail]
      exact .inl hkept.status
  | @last c tail s f hc hlast hopens hw =>
    have hkept := hc.kept hjet hnest
    rcases tryPush_cases { { m with context := c }.pop with subject := s } f tail with
      ⟨φ, hnext⟩ | hbail
    · rw [hnext]
      refine ⟨hkept.turn [φ.work tail] hs hw ?_ (.last φ hlast hopens rfl),
        hkept.status⟩
      intro x hx
      rw [List.mem_singleton.1 hx]
      exact φ.work_isPlain tail
    · rw [hbail]
      exact .inl hkept.status
  | finish hc hopens hmean hw =>
    have hkept := hc.kept hjet hnest
    exact ⟨hkept.turn [] hs hw (by simp) (.finish hopens hmean), hkept.status⟩
  | @call c w' s f hc hopens hphase hw =>
    obtain ⟨hstack, hstatus⟩ := hc.balanced hjet hnest
    unfold Machine.callInFrame
    rcases tryPush_cases { ({ m with context := c }.setTop w').setStack
      (({ m with context := c }.setTop w').context.stack.meanFramePush.push .ret)
      with subject := s } f true with ⟨φ, hnext⟩ | hbail
    · rw [hnext]
      refine ⟨.call w φ rest ({ m with context := c }.setTop w').context.stack.frame w' hs
        hw ?_ hphase hopens rfl ?_ ?_ ?_, hstatus⟩
      · show w' :: c.stack.frame.work.tail = _
        rw [hstack, hs]
        rfl
      · show _ :: c.stack.below = _
        rw [hstack]
      · show c.stack.frame.mean = _
        rw [hstack]
      · show c.stack.frame.mean = _
        rw [hstack]
    · rw [hbail]
      exact .inl hstatus
  | ret hw hpop => exact ⟨.ret rest (hw ▸ hs) hpop, rfl⟩
  | done hw hpop => exact ⟨hw, hpop, rfl⟩
  | brk hfails => exact hfails.spec hjet hnest
  | bail hfails =>
    rcases hfails.spec hjet hnest with ⟨_, _, hstatus⟩ | ⟨_, _, _, _, hcall, hb, hout⟩
    · exact .inl hstatus
    · exact .inr ⟨_, _, _, _, hcall, hb.status, hout⟩
  | scry hw hss hcall hout => exact scryAnswer_spec (hw ▸ hs) hcall rfl rfl hnest hout
  | panic | outOfFuel => trivial

/-- A nested call decides its turn unless it returns `Ok`: its panic is a
panic, and its error leaves the loop with the context it left. -/
def Decides (out : Option (Outcome Cold Warm)) (s : Step Cold Warm) : Prop :=
  match out with
  | none => s = .outOfFuel
  | some .panic => s = .panic
  | some (.err c _) => ∃ e, s = .brk c (.error e) ∨ s = .bail c e
  | some (.ok _ _) => True

theorem matchPreNock_bout {hint : Option (Noun × Noun)}
    (htag : tag = Noun.tas "bout") :
    matchPreNock env recur m.context m.subject tag hint body
      = match recur m.context m.subject body with
        | none => .outOfFuel
        | some .panic => .panic
        | some (.ok c r) => .found c (.ok r)
        | some (.err c e) => .found c (.error e) := by
  unfold matchPreNock
  rw [if_neg (by rw [htag]; decide)]
  exact if_pos htag

theorem armJet_eq_some {axis : Nat} {formula : Noun} {jet : Jet Cold Warm} {test : Bool}
    (h : armJet env m axis = some (formula, jet, test)) : m.res.slot axis = some formula ∧
      (if env.shamHints then none else env.findJet m.context.warm m.res formula)
        = some (jet, test) := by
  unfold armJet at h
  cases hslot : m.res.slot axis with
  | none => rw [hslot] at h; cases h
  | some g =>
    simp only [hslot] at h
    cases hfind : if env.shamHints then none else env.findJet m.context.warm m.res g with
    | none => rw [hfind] at h; cases h
    | some p =>
      rw [hfind] at h
      cases h
      exact ⟨rfl, hfind⟩

theorem step_tick (hs : m.context.stack.frame.work = w :: rest) :
    step env recur m.tick = stepWork env recur m.tick w := by
  simp [step, Context.tick_stack, hs]

/-- The nested calls of a turn, by the work item. -/
inductive NestedAt (env : Env Cold Warm) (m : Machine Cold Warm) :
    NockWork → Context Cold Warm → Noun → Noun → Prop where
  | jet {axis : Nat} {core : Noun} {tail : Bool} {f : Noun} {jet : Jet Cold Warm}
      {c : Context Cold Warm} {r : Noun} (harm : armJet env m axis = some (f, jet, true))
      (hjet : jet m.context m.res = (c, .ok r)) :
      NestedAt env m (.work9 .computeResult axis core tail) c m.res f
  | clue {tag : Nat} {hint f : Noun} {tail : Bool} (htag : tag = Noun.tas "bout") :
      NestedAt env m (.work11D .computeResult tag hint f tail) m.context m.subject f
  | hint {tag : Nat} {f : Noun} {tail : Bool} (htag : tag = Noun.tas "bout") :
      NestedAt env m (.work11S .computeResult tag f tail) m.context m.subject f
  | scry {reff path battery sample payload rest : Noun}
      (hss : m.context.scryStack = .cell (.cell battery (.cell sample payload)) rest) :
      NestedAt env m (.work12 .scry reff path)
        { (m.setTop (.work12 .scry reff m.res)).context with scryStack := rest } (.atom 0)
        (.cell (.atom 9) (.cell (.atom 2) (.cell (.atom 1)
          (.cell battery (.cell (.cell reff m.res) payload)))))

theorem nestedAt_of_call (hcall : nestedCall env m w = some (c₁, s₁, f₁)) :
    NestedAt env m w c₁ s₁ f₁ := by
  unfold nestedCall at hcall
  repeat' split at hcall
  all_goals cases hcall
  · exact .jet ‹_› ‹_›
  · exact .clue ‹_›
  · exact .hint ‹_›
  · exact .scry ‹_›

/-- A nested call starts with the counter of its turn. -/
theorem nestedCall_status (hjet : JetBalanced env m w)
    (hcall : nestedCall env m w = some (c₁, s₁, f₁)) : SameStatus m.context c₁ := by
  cases nestedAt_of_call hcall with
  | @jet _ _ _ _ jet _ _ harm hr =>
    have hb := hjet (jet m.context m.res).1 (by simp [jetCall, harm])
    rw [hr] at hb
    exact hb.status
  | clue | hint | scry => rfl

/-- A nested run other than that of a scry handler makes its turn fail with its
error. -/
theorem nestedCall_fail {c' : Context Cold Warm} {e : Error}
    (hscry : w.isScry = false) (hcall : nestedCall env m w = some (c₁, s₁, f₁))
    (hout : recur c₁ s₁ f₁ = some (.err c' e)) :
    stepWork env recur m w = .brk c' (.error e) ∨ stepWork env recur m w = .bail c' e := by
  cases nestedAt_of_call hcall with
  | jet harm hjet =>
    obtain ⟨hslot, hfind⟩ := armJet_eq_some harm
    right
    simp [stepWork, stepWork9, hslot, hfind, hjet, hout]
  | clue htag | hint htag =>
    left
    simp [stepWork, stepWork11D, stepWork11S, matchPreNock_bout htag, hout]
  | scry => cases hscry

/-- A turn that makes a nested call is decided by it, unless the call returns. -/
theorem nestedCall_decides (hcall : nestedCall env m w = some (c₁, s₁, f₁)) :
    Decides (recur c₁ s₁ f₁) (stepWork env recur m w) := by
  match hout : recur c₁ s₁ f₁ with
  | some (.ok c r) => trivial
  | some (.err c e) =>
    cases hscry : w.isScry with
    | false => exact ⟨e, nestedCall_fail hscry hcall hout⟩
    | true =>
      cases nestedAt_of_call hcall with
      | scry hss =>
        simp only [stepWork, stepWork12, hss]
        rw [hout]
        cases e <;> exact ⟨_, .inr rfl⟩
      | jet | clue | hint => cases hscry
  | none | some .panic =>
    cases nestedAt_of_call hcall with
    | jet harm hjet =>
      obtain ⟨hslot, hfind⟩ := armJet_eq_some harm
      simp [Decides, stepWork, stepWork9, hslot, hfind, hjet, hout]
    | clue htag | hint htag =>
      simp [Decides, stepWork, stepWork11D, stepWork11S, matchPreNock_bout htag, hout]
    | scry hss =>
      simp only [stepWork, stepWork12, hss]
      rw [hout]
      rfl

end

end Nockchain.Vm
