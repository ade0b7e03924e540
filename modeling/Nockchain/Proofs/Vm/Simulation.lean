import Nockchain.Proofs.Vm.Address

/-!
# `Nockchain.Proofs.Vm.Simulation`: the work stack runs the rules

The forward simulation between the interpreter's loop and the reduction
rules, for contexts without jets or scry handler (`Quiet`) and formulas whose
hints do nothing or, where the memo cache can be trusted, are `%memo` hints
(`Tame`).

`Sim o k g post` relates an outcome `o` of the rules to a stretch `g` of the
loop: a value is reached in a state that satisfies `post`, a crash is returned
as a deterministic exit, a crash in `#` is a panic, and where there is no
outcome the loop has not stopped within `k` turns. The last case is what turns
divergence of the rules into divergence of the loop.

The outcomes are those of an oracle `F` (`SimUpTo`). A cache hit skips
any number of unfoldings, so the number of turns cannot be read off the number
of unfoldings: the simulation runs once over the unfoldings, where it is silent
about missing outcomes, and once over the turns, with all outcomes at hand.

`Sim.turn` advances the loop by one turn and `Sim.call` evaluates an operand;
every opcode is a chain of the two. `sim_formula` puts the opcodes together.
-/

set_option autoImplicit false

namespace Nockchain.Vm

open Nockchain.Lib Context

/-! ### Formulas to work items -/

/-- The work item a formula is pushed as. -/
def Formula.work (tail : Bool) : Formula → NockWork
  | .cons h t => .workCons .computeHead h t
  | .slot axis => .work0 axis
  | .const n => .work1 n
  | .nock s f => .work2 .computeSubject s f tail
  | .isCell b => .work3 .computeChild b
  | .inc b => .work4 .computeChild b
  | .eq l r => .work5 .computeLeftChild l r
  | .cond b c d => .work6 .computeTest b c d tail
  | .comp s f => .work7 .computeSubject s f tail
  | .pin p f => .work8 .computeSubject p f tail
  | .arm axis c => .work9 .computeCore axis c tail
  | .edit axis p t => .work10 .computeTree axis t p
  | .hint tag b => .work11S .computeResult tag b (tail && Hint.isTail tag)
  | .clue tag c b => .work11D .computeHint tag c b (tail && Hint.isTail tag)
  | .scry r p => .work12 .computeReff r p

/-- `push_formula` accepts exactly the formulas some rule matches. -/
theorem pushFormula_eq (stack : NockStack) (f : Noun) (tail : Bool) :
    pushFormula stack f tail =
      match Formula.of f with
      | some φ => .ok (stack.push (φ.work tail))
      | none => .error bailExit := by
  fun_cases Formula.of f <;> simp_all [pushFormula, Formula.work]

section

variable {Cold Warm : Type} (m : Machine Cold Warm) {f : Noun} (tail : Bool)

theorem Machine.tryPush_of_none (hφ : Formula.of f = none) :
    m.tryPush f tail = .bail m.context bailExit := by
  simp [Machine.tryPush, pushFormula_eq, hφ]

theorem Machine.tryPush_of_some {φ : Formula} (hφ : Formula.of f = some φ) :
    m.tryPush f tail = .next (m.setStack (m.context.stack.push (φ.work tail))) := by
  simp [Machine.tryPush, pushFormula_eq, hφ]

end

/-! ### Stack and context updates -/

namespace NockStack

@[simp] theorem frame_work_push (s : NockStack) (w : NockWork) :
    (s.push w).frame.work = w :: s.frame.work := rfl

@[simp] theorem pop_push (s : NockStack) (w : NockWork) : (s.push w).pop = s := rfl

@[simp] theorem setTop_push (s : NockStack) (w w' : NockWork) :
    (s.push w).setTop w' = s.push w' := rfl

@[simp] theorem below_push (s : NockStack) (w : NockWork) : (s.push w).below = s.below := rfl

@[simp] theorem below_meanFramePush (s : NockStack) :
    s.meanFramePush.below = s.frame :: s.below := rfl

@[simp] theorem framePop_push_meanFramePush (s : NockStack) (w : NockWork) :
    (s.meanFramePush.push w).framePop = some s := rfl

/-- Unwinding to a frame at or below the current one succeeds. -/
theorem unwind_isSome {virtualFrame : Nat} (frame : Frame) {below : List Frame}
    (h : virtualFrame ≤ below.length) : ∃ s, unwind virtualFrame frame below = some s := by
  induction below generalizing frame with
  | nil => exact ⟨_, if_pos (Nat.le_zero.mp h)⟩
  | cons f fs ih =>
    by_cases heq : (f :: fs).length = virtualFrame
    · exact ⟨_, if_pos heq⟩
    · obtain ⟨s, hs⟩ := ih f (by rw [List.length_cons] at h heq; omega)
      exact ⟨s, by rw [unwind, if_neg heq, hs]⟩

end NockStack

section

variable {Cold Warm : Type}

namespace Context

@[simp] theorem tick_stack (c : Context Cold Warm) : c.tick.stack = c.stack := by
  unfold tick; split <;> rfl

@[simp] theorem tick_cold (c : Context Cold Warm) : c.tick.cold = c.cold := by
  unfold tick; split <;> rfl

@[simp] theorem tick_warm (c : Context Cold Warm) : c.tick.warm = c.warm := by
  unfold tick; split <;> rfl

@[simp] theorem tick_cache (c : Context Cold Warm) : c.tick.cache = c.cache := by
  unfold tick; split <;> rfl

@[simp] theorem tick_scryStack (c : Context Cold Warm) : c.tick.scryStack = c.scryStack := by
  unfold tick; split <;> rfl

end Context

/-- The machine at the start of a turn. -/
abbrev Machine.tick (m : Machine Cold Warm) : Machine Cold Warm :=
  { m with context := m.context.tick }

/-- What a memo cache remembers of a subject and a body is the value of the
body. -/
def SoundCache (cache : List (Noun × Noun)) : Prop :=
  ∀ s b r, cache.lookup (.cell s b) = some r → ReducesTo s b (.ok r)

/-- A value the rules have found may be remembered. -/
theorem SoundCache.cons {cache : List (Noun × Noun)} (h : SoundCache cache) {s b r : Noun}
    (hr : ReducesTo s b (.ok r)) : SoundCache ((.cell s b, r) :: cache) := by
  intro s' b' r' hlookup
  rw [List.lookup_cons] at hlookup
  split at hlookup
  case h_1 heq =>
      cases eq_of_beq heq
      cases hlookup
      exact hr
  case h_2 => exact h s' b' r' hlookup

/-- A context in which nothing but the rules decides: no jet matches, no scry
handler is installed, and the caller's frame is on the stack. If `%memo` hints
are to be served, the cache is sound. -/
structure Quiet (env : Env Cold Warm) (memo : Bool) (virtualFrame : Nat)
    (c : Context Cold Warm) : Prop where
  noJets : ∀ core formula, env.findJet c.warm core formula = none
  noScry : c.scryStack.isCell = false
  cache : memo = true → SoundCache c.cache
  frames : virtualFrame ≤ c.stack.below.length

/-- The tags on which the three hint functions do nothing. -/
def Hint.isNoop (env : Env Cold Warm) (tag : Nat) : Bool :=
  !(tag == Noun.tas "memo" || tag == Noun.tas "bout" || Hint.isMean tag
    || tag == Noun.tas "hela" || tag == Noun.tas "fast"
    || (tag == Noun.tas "sham" && env.shamHints) || (tag == Noun.tas "dont" && env.hintDont))

/-- A clue that has a value wherever the body of its hint has one. -/
def ClueRuns (s : Noun) : Formula → Prop
  | .clue _ clue body => ∀ r, ReducesTo s body (.ok r) → ∃ v, ReducesTo s clue (.ok v)
  | _ => True

/-- The tags of the hints the simulation covers. -/
def Hint.Covered (env : Env Cold Warm) (memo : Bool) (tag : Nat) : Prop :=
  isNoop env tag = true ∨ memo = true ∧ tag = Noun.tas "memo"

/-- If the formula of a call is a hint, it does nothing, or it is a `%memo`
hint whose clue runs. -/
def Tame (env : Env Cold Warm) (memo : Bool) (i : Noun × Noun) : Prop :=
  ∀ φ tag, Formula.of i.2 = some φ → φ.hintTag = some tag →
    Hint.isNoop env tag = true ∨ (memo = true ∧ tag = Noun.tas "memo") ∧ ClueRuns i.1 φ

namespace Hint

variable {env : Env Cold Warm} {memo : Bool} {tag : Nat}

/-- A covered hint does nothing before its clue runs, unless the cache has the
value of its body. -/
theorem matchPreHint_of_covered (h : Covered env memo tag) (c : Context Cold Warm)
    (subject hint body : Noun) :
    (∀ recur, matchPreHint env recur c subject tag hint body = .pass c) ∨
    (memo ∧ tag = Noun.tas "memo") ∧ ∃ r, c.cache.lookup (.cell subject body) = some r ∧
      ∀ recur, matchPreHint env recur c subject tag hint body = .found c (.ok r) := by
  rcases h with h | ⟨hmemo, rfl⟩
  · simp only [isNoop, Bool.not_eq_true', Bool.or_eq_false_iff, Bool.and_eq_false_iff,
      beq_eq_false_iff_ne, ne_eq] at h
    refine .inl fun recur => ?_
    unfold matchPreHint
    by_cases hsham : tag = Noun.tas "sham"
    · have hoff : env.shamHints = false := by
        rcases h.1.2 with hne | hoff
        · exact absurd hsham hne
        · exact hoff
      rw [if_pos hsham, hoff, if_neg (by simp)]
    · rw [if_neg hsham, if_neg h.1.1.1.1.1.1]
  · have hpre : ∀ recur, matchPreHint env recur c subject (Noun.tas "memo") hint body
        = (c.cache.lookup (.cell subject body)).elim (.pass c) fun r => .found c (.ok r) := by
      intro recur
      unfold matchPreHint
      rw [if_neg (by decide), if_pos rfl]
      cases c.cache.lookup (.cell subject body) <;> rfl
    cases hr : c.cache.lookup (.cell subject body) with
    | none => exact .inl fun recur => by rw [hpre, hr]; rfl
    | some r => exact .inr ⟨⟨hmemo, rfl⟩, r, rfl, fun recur => by rw [hpre, hr]; rfl⟩

/-- Nor does it do anything before its body runs. -/
theorem matchPreNock_of_covered (h : Covered env memo tag) (recur : Recur Cold Warm)
    (c : Context Cold Warm) (subject : Noun) (hint : Option (Noun × Noun)) (body : Noun) :
    matchPreNock env recur c subject tag hint body = .pass c := by
  rcases h with h | ⟨-, rfl⟩
  · simp only [isNoop, Bool.not_eq_true', Bool.or_eq_false_iff, Bool.and_eq_false_iff,
      beq_eq_false_iff_ne, ne_eq] at h
    unfold matchPreNock
    by_cases hdont : tag = Noun.tas "dont"
    · have hoff : env.hintDont = false := by
        rcases h.2 with hne | hoff
        · exact absurd hdont hne
        · exact hoff
      rw [if_pos hdont, hoff, if_neg (by simp)]
    · rw [if_neg hdont, if_neg h.1.1.1.1.1.2, if_neg (by simp [h.1.1.1.1.2]),
        if_neg h.1.1.1.2]
  · unfold matchPreNock
    rw [if_neg (by decide), if_neg (by decide), if_neg (by decide), if_neg (by decide)]

/-- After its body, it changes at most the cache, and remembers a value of the
body there. -/
theorem matchPostNock_of_covered (h : Covered env memo tag) (c : Context Cold Warm)
    (subject : Noun) (hint : Option Noun) (body res : Noun)
    (hcache : memo → SoundCache c.cache) (hres : ReducesTo subject body (.ok res)) :
    ∃ cache, matchPostNock env c subject tag hint body res = some { c with cache := cache } ∧
      (memo → SoundCache cache) := by
  rcases h with h | ⟨hmemo, rfl⟩
  · simp only [isNoop, Bool.not_eq_true', Bool.or_eq_false_iff, Bool.and_eq_false_iff,
      beq_eq_false_iff_ne, ne_eq] at h
    refine ⟨c.cache, ?_, hcache⟩
    unfold matchPostNock
    rw [if_neg h.1.1.1.1.1.1, if_neg (by simp [h.1.1.1.1.2]), if_neg h.1.1.2]
  · exact ⟨(.cell subject body, res) :: c.cache, if_pos rfl, fun _ => (hcache hmemo).cons hres⟩

end Hint

/-! ### Relating a stretch of the loop to an outcome of the rules -/

variable (env : Env Cold Warm) (snapshot : ContextSnapshot Cold Warm) (virtualFrame : Nat)

/-- A stretch of the loop: what it leads to within a number of turns. -/
abbrev Stretch (Cold Warm : Type) : Type :=
  Recur Cold Warm → Nat → Option (Outcome Cold Warm)

/-- The loop from a state on. -/
def fromState (m : Machine Cold Warm) : Stretch Cold Warm :=
  fun recur n => loop env recur snapshot virtualFrame n m

/-- The loop from the result of a turn on. -/
def fromStep (s : Step Cold Warm) : Stretch Cold Warm :=
  fun recur n =>
    match s with
    | .next m => loop env recur snapshot virtualFrame n m
    | .brk context result => some (leave context snapshot virtualFrame result)
    | .bail context error => some (.err context error)
    | .panic => some .panic
    | .outOfFuel => none

/-- `Err(Deterministic(Exit, ..))`. -/
def IsExit (o : Option (Outcome Cold Warm)) : Prop :=
  ∃ context trace, o = some (.err context (.deterministic .exit trace))

/-- The stretch `g` matches the outcome `o` that the rules have with `k`
unfoldings. -/
def Sim (o : Option (Except Crash Noun)) (k : Nat) (g : Stretch Cold Warm)
    (post : Machine Cold Warm → Noun → Prop) : Prop :=
  match o with
  | some (.ok r) => ∃ d m, post m r ∧
      ∀ recur n, g recur (n + d) = loop env recur snapshot virtualFrame n m
  | some (.error .exit) => ∃ d, ∀ recur n, IsExit (g recur (n + d))
  | some (.error .edit) => ∃ d, ∀ recur n, g recur (n + d) = some .panic
  | none => ∀ recur n, n < k → g recur n = none

/-- The loop from a state on matches the outcome. -/
abbrev SimFrom (o : Option (Except Crash Noun)) (k : Nat) (m : Machine Cold Warm)
    (post : Machine Cold Warm → Noun → Prop) : Prop :=
  Sim env snapshot virtualFrame o k (fromState env snapshot virtualFrame m) post

/-- The loop from the result of a turn on matches it. -/
abbrev SimStep (o : Option (Except Crash Noun)) (k : Nat) (s : Step Cold Warm)
    (post : Machine Cold Warm → Noun → Prop) : Prop :=
  Sim env snapshot virtualFrame o k (fromStep env snapshot virtualFrame s) post

variable {env snapshot virtualFrame}

/-- More turns keep an outcome of the loop. -/
theorem loop_succ {recur : Recur Cold Warm} {n : Nat} {m : Machine Cold Warm}
    {o : Outcome Cold Warm} (h : loop env recur snapshot virtualFrame n m = some o) :
    loop env recur snapshot virtualFrame (n + 1) m = some o := by
  induction n generalizing m with
  | zero => cases h
  | succ n ih =>
    rw [loop] at h ⊢
    cases hs : step env recur m.tick with
    | next m' =>
      rw [hs] at h
      exact ih h
    | brk c r | bail c e | panic => rw [hs] at h; exact h
    | outOfFuel => rw [hs] at h; cases h

theorem fromStep_add {s : Step Cold Warm} {recur : Recur Cold Warm} {n : Nat}
    {o : Outcome Cold Warm} (h : fromStep env snapshot virtualFrame s recur n = some o)
    (d : Nat) : fromStep env snapshot virtualFrame s recur (n + d) = some o := by
  cases s with
  | next m =>
    induction d with
    | zero => exact h
    | succ d ih => exact loop_succ ih
  | brk c r | bail c e | panic => exact h
  | outOfFuel => cases h

section

variable {o : Option (Except Crash Noun)} {k : Nat} {g : Stretch Cold Warm}
  {post post' : Machine Cold Warm → Noun → Prop} {m : Machine Cold Warm}

/-- One turn of the loop. It pays for one more unfolding. -/
theorem Sim.turn {stack : NockStack} {w : NockWork} {s : Step Cold Warm}
    (hstack : m.context.stack = stack.push w) (hstep : ∀ recur, stepWork env recur m.tick w = s)
    (h : SimStep env snapshot virtualFrame o k s post) :
    SimFrom env snapshot virtualFrame o (k + 1) m post := by
  have hturn : ∀ recur n, fromState env snapshot virtualFrame m recur (n + 1)
      = fromStep env snapshot virtualFrame s recur n := by
    intro recur n
    have hs : step env recur m.tick = s := by
      rw [step]
      simp only [tick_stack, hstack, NockStack.frame_work_push]
      exact hstep recur
    unfold fromState fromStep
    cases s <;> simp [loop, hs]
  match o with
  | some (.ok r) =>
    obtain ⟨d, m', hpost, hd⟩ := h
    exact ⟨d + 1, m', hpost, fun recur n => (hturn recur (n + d)).trans (hd recur n)⟩
  | some (.error .exit) =>
    obtain ⟨d, hd⟩ := h
    exact ⟨d + 1, fun recur n => by rw [← Nat.add_assoc, hturn]; exact hd recur n⟩
  | some (.error .edit) =>
    obtain ⟨d, hd⟩ := h
    exact ⟨d + 1, fun recur n => (hturn recur (n + d)).trans (hd recur n)⟩
  | none =>
    intro recur n hn
    cases n with
    | zero => rfl
    | succ n => exact (hturn recur n).trans (h recur n (by omega))

/-- The bound may be lowered. -/
theorem Sim.lower (h : Sim env snapshot virtualFrame o (k + 1) g post) :
    Sim env snapshot virtualFrame o k g post :=
  match o with
  | some (.ok _) | some (.error .exit) | some (.error .edit) => h
  | none => fun recur n hn => h recur n (by omega)

/-- Two stretches in a row: the second starts where the first one's value
leaves the loop. -/
theorem Sim.bind {s : Step Cold Warm} {rest : Noun → Option (Except Crash Noun)}
    (h : SimStep env snapshot virtualFrame o k s post) (hrest : ∀ r m, o = some (.ok r) → post m r →
      SimFrom env snapshot virtualFrame (rest r) k m post') :
    SimStep env snapshot virtualFrame (andThen o rest) k s post' := by
  match o with
  | none | some (.error .exit) | some (.error .edit) => exact h
  | some (.ok r) =>
    obtain ⟨d, m, hpost, hd⟩ := h
    have h2 := hrest r m rfl hpost
    show Sim env snapshot virtualFrame (rest r) k _ post'
    match hr : rest r with
    | some (.ok r') =>
      rw [hr] at h2
      obtain ⟨d', m', hpost', hd'⟩ := h2
      refine ⟨d' + d, m', hpost', fun recur n => ?_⟩
      rw [← Nat.add_assoc, hd]
      exact hd' recur n
    | some (.error .exit) | some (.error .edit) =>
      rw [hr] at h2
      obtain ⟨d', hd'⟩ := h2
      refine ⟨d' + d, fun recur n => ?_⟩
      rw [← Nat.add_assoc, hd]
      exact hd' recur n
    | none =>
      rw [hr] at h2
      intro recur n hn
      -- an outcome now would still be there `d` turns later, where there is none
      cases hg : fromStep env snapshot virtualFrame s recur n with
      | none => rfl
      | some out =>
        have hlate := fromStep_add hg d
        rw [hd] at hlate
        exact absurd (hlate.symm.trans (h2 recur n hn)) (by simp)

/-- A deterministic exit by `break`. -/
theorem Sim.exit {c : Context Cold Warm} (hframes : virtualFrame ≤ c.stack.below.length) :
    SimStep env snapshot virtualFrame (some (.error .exit)) k (.brk c (.error bailExit)) post := by
  refine ⟨0, fun _ _ => ?_⟩
  obtain ⟨s, hs⟩ := NockStack.unwind_isSome c.stack.frame hframes
  show IsExit (some (leave c snapshot virtualFrame (.error bailExit)))
  simp only [leave, Vm.exit, restore, tick_stack, hs]
  exact ⟨_, _, rfl⟩

/-- A deterministic exit by an early return. -/
theorem Sim.bail {c : Context Cold Warm} :
    SimStep env snapshot virtualFrame (some (.error .exit)) k (.bail c bailExit) post :=
  ⟨0, fun _ _ => ⟨_, _, rfl⟩⟩

/-- A panic in `edit`. -/
theorem Sim.panic :
    SimStep env snapshot virtualFrame (some (.error .edit)) k (.panic : Step Cold Warm) post :=
  ⟨0, fun _ _ => rfl⟩

/-- A value that is already there. -/
theorem Sim.value {r : Noun} (h : post m r) :
    SimFrom env snapshot virtualFrame (some (.ok r)) k m post :=
  ⟨0, m, h, fun _ _ => rfl⟩

end

/-! ### The start of a run -/

/-- The machine `interpret` sets up, before it pushes the formula. -/
def start (c : Context Cold Warm) (s : Noun) : Machine Cold Warm :=
  { context := enter c.tick, subject := s, res := .atom 0 }

/-- A run that is not cancelled at the start pushes the formula and loops. -/
theorem interpret_succ {c : Context Cold Warm} {s f : Noun} (hlive : 0 ≤ c.tick.runningStatus)
    (fuel : Nat) : interpret env (fuel + 1) c s f
      = fromStep env c.save c.stack.framePointer ((start c s).tryPush f true)
          (interpret env fuel) fuel := by
  rw [interpret]
  simp only [if_neg (Int.not_lt.mpr hlive)]
  have hstack : (start c s).context.stack = (enter c.tick).stack := rfl
  rw [Machine.tryPush, hstack]
  cases pushFormula (enter c.tick).stack f true <;> rfl

/-! ### Evaluating operands -/

/-- Since `c`, evaluation has kept the jets and the scry handler, and what is
in the cache can still be trusted. -/
structure Undisturbed (memo : Bool) (c c' : Context Cold Warm) : Prop where
  warm : c'.warm = c.warm
  scryStack : c'.scryStack = c.scryStack
  cache : memo = true → SoundCache c'.cache

/-- The machine is at work item `w`, above the stack of `c`, with subject `s`. -/
structure AtWork (memo : Bool) (c : Context Cold Warm) (s : Noun) (w : NockWork)
    (m : Machine Cold Warm) : Prop where
  stack : m.context.stack = c.stack.push w
  context : Undisturbed memo c m.context
  subject : m.subject = s

/-- The machine is back at the stack of `c` with result `r`. Outside tail
position the subject is `s` again; in tail position nothing reads it. -/
structure Returned (memo : Bool) (c : Context Cold Warm) (s : Noun) (tail : Bool)
    (m : Machine Cold Warm) (r : Noun) : Prop where
  res : m.res = r
  stack : m.context.stack = c.stack
  context : Undisturbed memo c m.context
  subject : tail = false → m.subject = s

variable (env snapshot virtualFrame) in
/-- The simulation for all formulas, with the outcomes that `F` knows, for `k`
turns. If there are turns to speak of, `F` knows all outcomes. -/
structure SimUpTo (memo : Bool) (F : Noun × Noun → Option (Except Crash Noun)) (k : Nat) :
    Prop where
  sound : ∀ i o, F i = some o → Evals rules (rules i) o
  complete : k ≠ 0 → ∀ i o, Evals rules (rules i) o → F i = some o
  sim : ∀ (m : Machine Cold Warm) (f : Noun) (tail : Bool),
    Quiet env memo virtualFrame m.context →
    (∀ i, Reaches rules (m.subject, f) i → Tame env memo i) →
    SimStep env snapshot virtualFrame (F (m.subject, f)) k (m.tryPush f tail)
      (Returned memo m.context m.subject tail)

/-- Calls whose hints are all tame. -/
abbrev Harmless (env : Env Cold Warm) (memo : Bool) (p : Nock) : Prop :=
  Covered rules (Tame env memo) p

section

variable {memo : Bool} {F : Noun × Noun → Option (Except Crash Noun)} {k : Nat}
  {c c' : Context Cold Warm} {s f : Noun} {K : Noun → Nock}
  {post : Machine Cold Warm → Noun → Prop} {m : Machine Cold Warm}

theorem Undisturbed.tick (h : Undisturbed memo c c') : Undisturbed memo c c'.tick where
  warm := (tick_warm c').trans h.warm
  scryStack := (tick_scryStack c').trans h.scryStack
  cache := by rw [tick_cache]; exact h.cache

theorem Undisturbed.setStack (h : Undisturbed memo c m.context) (stack : NockStack) :
    Undisturbed memo c (m.setStack stack).context :=
  ⟨h.warm, h.scryStack, h.cache⟩

theorem Undisturbed.trans {c'' : Context Cold Warm} (h : Undisturbed memo c c')
    (h' : Undisturbed memo c' c'') : Undisturbed memo c c'' :=
  ⟨h'.warm.trans h.warm, h'.scryStack.trans h.scryStack, h'.cache⟩

/-- Quietness only looks at the parts of a context that evaluation keeps. -/
theorem Quiet.of_undisturbed (h : Quiet env memo virtualFrame c) (hsame : Undisturbed memo c c')
    (hframes : c.stack.below.length ≤ c'.stack.below.length) : Quiet env memo virtualFrame c' where
  noJets := by rw [hsame.warm]; exact h.noJets
  noScry := by rw [hsame.scryStack]; exact h.noScry
  cache := hsame.cache
  frames := Nat.le_trans h.frames hframes

variable {w : NockWork}

/-- The stack after the turn that overwrites the topmost item. -/
theorem AtWork.stack_setTop (hat : AtWork memo c s w m) (w' : NockWork) :
    m.context.tick.stack.setTop w' = c.stack.push w' := by
  rw [tick_stack, hat.stack, NockStack.setTop_push]

/-- The stack after the turn that drops it. -/
theorem AtWork.stack_pop (hat : AtWork memo c s w m) : m.context.tick.stack.pop = c.stack := by
  rw [tick_stack, hat.stack, NockStack.pop_push]

section

variable (ih : SimUpTo env snapshot virtualFrame memo F k)

include ih

/-- If the loop matches the outcome there is, it matches what `F` knows of it
after one turn. -/
theorem Sim.of_evals {p : Nock} {o : Except Crash Noun} (ho : Evals rules p o)
    (h : SimFrom env snapshot virtualFrame (some o) (k + 1) m post) :
    SimFrom env snapshot virtualFrame (p.exec F) (k + 1) m post := by
  cases hF : p.exec F with
  | some o' =>
    rwa [(exec_sound ih.sound p hF).unique ho]
  | none =>
    -- `F` knows all outcomes unless only the first turn counts
    have hk : k = 0 := by
      by_contra hk
      exact absurd ((exec_of_evals (ih.complete hk) ho).symm.trans hF) (by simp)
    subst hk
    intro recur n hn
    cases Nat.lt_one_iff.mp hn
    rfl

/-- A call of the rules, run by pushing its formula. -/
theorem Sim.call (tail : Bool) (hq : Quiet env memo virtualFrame m.context) (hs : m.subject = s)
    (hharm : Harmless env memo (.call (s, f) K))
    (hK : ∀ r m', Returned memo m.context s tail m' r → ReducesTo s f (.ok r) →
      Harmless env memo (K r) → SimFrom env snapshot virtualFrame ((K r).exec F) k m' post) :
    SimStep env snapshot virtualFrame ((Prog.call (s, f) K).exec F) k (m.tryPush f tail) post := by
  subst hs
  refine (ih.sim m f tail hq hharm.call).bind fun r m' ho hret => ?_
  have hr : ReducesTo m.subject f (.ok r) := ih.sound _ _ ho
  exact hK r m' hret hr (hharm.rest hr)

/-- The turn that overwrites the topmost item with its next phase and
evaluates an operand. -/
theorem Sim.operand {w w' : NockWork}
    (hq : Quiet env memo virtualFrame c) (hat : AtWork memo c s w m)
    (hstep : ∀ recur, stepWork env recur m.tick w = (m.tick.setTop w').tryPush f false)
    (hharm : Harmless env memo (.call (s, f) K))
    (hK : ∀ r m', AtWork memo c s w' m' → m'.res = r → ReducesTo s f (.ok r) →
      Harmless env memo (K r) → SimFrom env snapshot virtualFrame ((K r).exec F) k m' post) :
    SimFrom env snapshot virtualFrame ((Prog.call (s, f) K).exec F) (k + 1) m post := by
  have hstack := hat.stack_setTop w'
  have hsame : Undisturbed memo c (m.tick.setTop w').context :=
    hat.context.tick.setStack (m := m.tick) _
  refine Sim.turn hat.stack hstep (Sim.call ih false ?_ hat.subject hharm ?_)
  · refine hq.of_undisturbed hsame ?_
    show _ ≤ (m.context.tick.stack.setTop w').below.length
    rw [hstack]
    exact Nat.le_refl _
  · intro r m' hret hr hharm'
    exact hK r m' ⟨hret.stack.trans hstack, hsame.trans hret.context, hret.subject rfl⟩ hret.res
      hr hharm'

end

variable {tail : Bool}

/-- The turn that finishes the topmost item, in a context with the same stack. -/
theorem Sim.finishWith {r : Noun} (hat : AtWork memo c s w m)
    (hstack : c'.stack = m.context.tick.stack) (hsame : Undisturbed memo c c')
    (hstep : ∀ recur, stepWork env recur m.tick w = { m with context := c' }.finish r) :
    SimFrom env snapshot virtualFrame (some (.ok r)) (k + 1) m (Returned memo c s tail) := by
  refine Sim.turn hat.stack hstep (Sim.value (m := { m with context := _, res := r }) ?_)
  refine ⟨rfl, ?_, hsame.setStack (m := { m with context := c' }) _, fun _ => hat.subject⟩
  show c'.stack.pop = _
  rw [hstack, hat.stack_pop]

/-- The turn that finishes the topmost item. -/
theorem Sim.finish {r : Noun} (hat : AtWork memo c s w m)
    (hstep : ∀ recur, stepWork env recur m.tick w = m.tick.finish r) :
    SimFrom env snapshot virtualFrame (some (.ok r)) (k + 1) m (Returned memo c s tail) :=
  Sim.finishWith hat rfl hat.context.tick hstep

/-- The turn that leaves the loop with a deterministic exit. -/
theorem Sim.crash (hq : Quiet env memo virtualFrame c) (hat : AtWork memo c s w m)
    (c' : Context Cold Warm) (hbelow : c'.stack.below = m.context.stack.below)
    (hstep : ∀ recur, stepWork env recur m.tick w = .brk c' (.error bailExit)) :
    SimFrom env snapshot virtualFrame (some (.error .exit)) (k + 1) m post := by
  refine Sim.turn hat.stack hstep (Sim.exit ?_)
  rw [hbelow, hat.stack]
  exact hq.frames

/-- The turn that puts the subject back and drops the item. -/
theorem Sim.restore {s' r : Noun} (hat : AtWork memo c s' w m) (hres : m.res = r)
    (hstep : ∀ recur, stepWork env recur m.tick w = .next { m.tick.pop with subject := s }) :
    SimFrom env snapshot virtualFrame (some (.ok r)) (k + 1) m (Returned memo c s tail) := by
  refine Sim.turn hat.stack hstep (Sim.value (m := { m with context := _, subject := s }) ?_)
  exact ⟨hres, hat.stack_pop,
    hat.context.tick.setStack (m := m.tick) _, fun _ => rfl⟩

/-- The last formula of an item that has been dropped already: it is run in
the item's place, with its result as the result. Outside tail position it must
have the item's subject. -/
theorem Sim.last (ih : SimUpTo env snapshot virtualFrame memo F k)
    (hq : Quiet env memo virtualFrame c) {s' : Noun}
    (hstack : m.context.stack = c.stack) (hsame : Undisturbed memo c m.context)
    (hsubject : m.subject = s') (hback : tail = false → s' = s)
    (hharm : Harmless env memo (.call (s', f) .pure)) :
    SimStep env snapshot virtualFrame ((Prog.call (s', f) Prog.pure).exec F) k (m.tryPush f tail)
      (Returned memo c s tail) := by
  have hq' : Quiet env memo virtualFrame m.context :=
    hq.of_undisturbed hsame (Nat.le_of_eq (by rw [hstack]))
  refine Sim.call ih tail hq' hsubject hharm ?_
  intro r m' hret _ _
  exact Sim.value ⟨hret.res, hret.stack.trans hstack, hsame.trans hret.context,
    fun ht => (hret.subject ht).trans (hback ht)⟩

/-- A formula called in a frame of its own, below which item `w` waits. -/
theorem Sim.inFrame (ih : SimUpTo env snapshot virtualFrame memo F k)
    (hq : Quiet env memo virtualFrame c) {s' : Noun}
    (hstack : m.context.stack = c.stack.push w) (hsame : Undisturbed memo c m.context)
    (hharm : Harmless env memo (.call (s', f) K))
    (hK : ∀ r m', AtWork memo c m'.subject w m' → m'.res = r → Harmless env memo (K r) →
      SimFrom env snapshot virtualFrame ((K r).exec F) k m' post) :
    SimStep env snapshot virtualFrame ((Prog.call (s', f) K).exec F) k (m.callInFrame s' f)
      post := by
  have hcalled := hsame.setStack (m.context.stack.meanFramePush.push .ret)
  refine Sim.call ih true (hq.of_undisturbed hcalled ?_) rfl hharm ?_
  · show _ ≤ (m.context.stack.meanFramePush.push .ret).below.length
    rw [hstack]
    exact Nat.le_succ _
  intro r m' hret _ hharm'
  -- the frame's own `Ret` pops it
  have hret_stack : m'.context.stack = (c.stack.push w).meanFramePush.push .ret := by
    rw [← hstack]
    exact hret.stack
  have hback : Undisturbed memo c m'.context.tick := (hcalled.trans hret.context).tick
  refine (Sim.turn hret_stack (s := .next (m'.tick.setStack (c.stack.push w)))
    (fun _ => ?_) (hK r _ ⟨rfl, ⟨hback.warm, hback.scryStack, hback.cache⟩, rfl⟩ hret.res
      hharm')).lower
  simp [stepWork, popFrame, tick_stack, hret_stack, NockStack.framePop_push_meanFramePush]

end

end

end Nockchain.Vm
