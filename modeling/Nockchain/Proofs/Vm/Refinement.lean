import Nockchain.Proofs.Vm.Opcodes

/-!
# `Nockchain.Proofs.Vm.Refinement`: `interpret` against the reduction rules

What the simulation says about whole runs. In a context without jets and
scry handler, and for a formula whose hints do nothing or are served from a
sound memo cache (`Simulated`), the outcome of `interpret` is decided by the
rules:

* `interpret_of_reducesTo`: where the rules have an outcome, `interpret`
  returns with enough fuel, and whatever it returns matches that outcome;
* `interpret_of_diverges`: where they have none, `interpret` does not return.

`Matches` is the correspondence of outcomes. It is the intended one except in
one place: where the rules crash in `#`, the interpreter panics, because
`edit` unwraps its axis and every cell on the way with `expect`.
`followsRules_iff` is the consequence for the interpreter's contract.
-/

set_option autoImplicit false

namespace Nockchain.Vm

open Nockchain.Lib Context

section

variable {Cold Warm : Type}

/-- A context to run plain Nock in: no jet is registered, no scry handler is
installed, and the run has not been cancelled before it starts. -/
structure Bare (env : Env Cold Warm) (c : Context Cold Warm) : Prop where
  noJets : ∀ core formula, env.findJet c.warm core formula = none
  noScry : c.scryStack.isCell = false
  live : 0 ≤ c.tick.runningStatus

/-- A run that the simulation covers: in a bare context, with tame hints and,
where `%memo` hints are to be served, with a sound cache. -/
structure Simulated (env : Env Cold Warm) (memo : Bool) (c : Context Cold Warm) (s f : Noun) :
    Prop where
  bare : Bare env c
  cache : memo = true → SoundCache c.cache
  tame : ∀ i, Reaches rules (s, f) i → Tame env memo i

/-- `interpret` finishes with an outcome. -/
def Finishes (env : Env Cold Warm) (c : Context Cold Warm) (s f : Noun)
    (out : Outcome Cold Warm) : Prop :=
  ∃ fuel, interpret env fuel c s f = some out

/-- The contract of `interpret` at a subject and a formula: `Ok(r)` exactly
when the rules reduce to `r`, and a deterministic exit exactly when they
crash. -/
def FollowsRules (env : Env Cold Warm) (c : Context Cold Warm) (s f : Noun) : Prop :=
  (∀ r, (∃ c', Finishes env c s f (.ok c' r)) ↔ Reduces s f (some r)) ∧
  ((∃ c' trace, Finishes env c s f (.err c' (.deterministic .exit trace))) ↔ Reduces s f none)

/-- The outcome of the interpreter that belongs to an outcome of the rules. -/
def Matches (out : Outcome Cold Warm) : Except Crash Noun → Prop
  | .ok r => ∃ c, out = .ok c r
  | .error .exit => ∃ c trace, out = .err c (.deterministic .exit trace)
  | .error .edit => out = .panic

variable {env : Env Cold Warm} {memo : Bool} {c : Context Cold Warm} {s f : Noun}

theorem Simulated.quiet (h : Simulated env memo c s f) :
    Quiet env memo c.stack.framePointer (start c s).context where
  noJets := by
    show ∀ core formula, env.findJet c.tick.warm core formula = none
    rw [tick_warm]
    exact h.bare.noJets
  noScry := by
    show c.tick.scryStack.isCell = false
    rw [tick_scryStack]
    exact h.bare.noScry
  cache := by
    show memo → SoundCache c.tick.cache
    rw [tick_cache]
    exact h.cache
  frames := by
    show c.stack.below.length ≤ (c.tick.stack.frame :: c.tick.stack.below).length
    rw [tick_stack]
    exact Nat.le_succ _

/-- The last turn: `Done` pops the frame of the run and returns the result. -/
theorem loop_done {recur : Recur Cold Warm} {n : Nat} {m : Machine Cold Warm} {r : Noun}
    {snapshot : ContextSnapshot Cold Warm} {virtualFrame : Nat}
    (h : Returned memo (start c s).context s true m r) :
    ∃ c', loop env recur snapshot virtualFrame (n + 1) m = some (.ok c' r) := by
  have hstack : m.context.tick.stack = (c.tick.stack.framePush (.atom 0)).push .done := by
    rw [tick_stack]
    exact h.stack
  have hpop : ((c.tick.stack.framePush (.atom 0)).push .done).framePop = some c.tick.stack := rfl
  rw [loop]
  simp only [step, hstack, NockStack.frame_work_push, stepWork, popFrame, hpop, Option.map_some,
    Machine.setStack, leave, h.res]
  exact ⟨_, rfl⟩

variable {o : Except Crash Noun}

/-- A simulated run reaches an outcome that matches, and keeps it. -/
theorem exists_turns
    (hsim : SimStep env c.save c.stack.framePointer (some o) 0 ((start c s).tryPush f true)
      (Returned memo (start c s).context s true)) :
    ∃ d, ∀ recur n, ∃ out, fromStep env c.save c.stack.framePointer ((start c s).tryPush f true)
      recur (n + d) = some out ∧ Matches out o := by
  match o with
  | .ok r =>
    obtain ⟨d, m, hret, hd⟩ := hsim
    refine ⟨1 + d, fun recur n => ?_⟩
    obtain ⟨c', hc'⟩ := loop_done hret
    exact ⟨_, by rw [← Nat.add_assoc, hd, hc'], c', rfl⟩
  | .error .exit =>
    obtain ⟨d, hd⟩ := hsim
    refine ⟨d, fun recur n => ?_⟩
    obtain ⟨c', trace, hc'⟩ := hd recur n
    exact ⟨_, hc', c', trace, rfl⟩
  | .error .edit =>
    obtain ⟨d, hd⟩ := hsim
    exact ⟨d, fun recur n => ⟨_, hd recur n, rfl⟩⟩

/-- So `interpret` finishes, and only with a matching outcome. -/
theorem interpret_of_sim (hlive : 0 ≤ c.tick.runningStatus)
    (hsim : SimStep env c.save c.stack.framePointer (some o) 0 ((start c s).tryPush f true)
      (Returned memo (start c s).context s true)) :
    (∃ out, Finishes env c s f out) ∧ ∀ out, Finishes env c s f out → Matches out o := by
  obtain ⟨d, hd⟩ := exists_turns hsim
  constructor
  · obtain ⟨out, hout, -⟩ := hd (interpret env d) 0
    exact ⟨out, d + 1, by rw [interpret_succ hlive, ← hout, Nat.zero_add]⟩
  rintro out ⟨fuel, hfuel⟩
  cases fuel with
  | zero => cases hfuel
  | succ fuel =>
    -- this outcome is still there after `d` more turns, where the matching one is
    rw [interpret_succ hlive] at hfuel
    obtain ⟨out', hout', hmatch⟩ := hd (interpret env fuel) fuel
    rw [fromStep_add hfuel d] at hout'
    exact Option.some.inj hout' ▸ hmatch

section Simulated

variable (hsimulated : Simulated env memo c s f)
include hsimulated

/-- Where the rules have an outcome, `interpret` finishes, and only with a
matching outcome. -/
theorem interpret_of_reducesTo (ho : ReducesTo s f o) :
    (∃ out, Finishes env c s f out) ∧ ∀ out, Finishes env c s f out → Matches out o := by
  have hsim := (sim_formula env c.save c.stack.framePointer memo 0).sim (start c s) f true
    hsimulated.quiet hsimulated.tame
  rw [show outcome rules ((start c s).subject, f) = some o from outcome_eq_some.mpr ho] at hsim
  exact interpret_of_sim hsimulated.bare.live hsim

/-- Where the rules have no outcome, `interpret` does not finish. -/
theorem interpret_of_diverges (hdiv : ∀ o, ¬ ReducesTo s f o) (out : Outcome Cold Warm) :
    ¬ Finishes env c s f out := by
  rintro ⟨fuel, hfuel⟩
  cases fuel with
  | zero => cases hfuel
  | succ fuel =>
    have hnone : outcome rules (s, f) = none := by
      rw [Option.eq_none_iff_forall_ne_some]
      exact fun o ho => hdiv o (outcome_eq_some.mp ho)
    have hsim := (sim_formula env c.save c.stack.framePointer memo (fuel + 1)).sim (start c s) f
      true hsimulated.quiet hsimulated.tame
    rw [show outcome rules ((start c s).subject, f) = none from hnone] at hsim
    rw [interpret_succ hsimulated.bare.live, hsim _ _ (Nat.lt_succ_self fuel)] at hfuel
    cases hfuel

theorem reducesTo_of_finishes {out : Outcome Cold Warm} (hfin : Finishes env c s f out) :
    ∃ o, ReducesTo s f o ∧ Matches out o := by
  by_cases hdiv : ∀ o, ¬ ReducesTo s f o
  · exact absurd hfin (interpret_of_diverges hsimulated hdiv _)
  obtain ⟨o, ho⟩ := not_forall_not.mp hdiv
  exact ⟨o, ho, (interpret_of_reducesTo hsimulated ho).2 _ hfin⟩

/-- `Ok(r)` is returned exactly when the rules reduce to `r`, on every input. -/
theorem finishes_ok_iff (r : Noun) :
    (∃ c', Finishes env c s f (.ok c' r)) ↔ Reduces s f (some r) := by
  constructor
  · rintro ⟨c', hfin⟩
    obtain ⟨o, ho, hmatch⟩ := reducesTo_of_finishes hsimulated hfin
    match o with
    | .ok r' =>
      obtain ⟨c'', heq⟩ := hmatch
      cases heq
      exact ho
    | .error .exit =>
      obtain ⟨_, _, heq⟩ := hmatch
      cases heq
    | .error .edit => cases hmatch
  · intro hred
    obtain ⟨⟨out, hfin⟩, hall⟩ := interpret_of_reducesTo hsimulated hred
    obtain ⟨c', rfl⟩ := hall out hfin
    exact ⟨c', hfin⟩

/-- A deterministic exit is returned exactly when the rules crash outside `#`. -/
theorem finishes_exit_iff : (∃ c' trace, Finishes env c s f (.err c' (.deterministic .exit trace)))
      ↔ ReducesTo s f (.error .exit) := by
  constructor
  · rintro ⟨c', trace, hfin⟩
    obtain ⟨o, ho, hmatch⟩ := reducesTo_of_finishes hsimulated hfin
    match o with
    | .ok r =>
      obtain ⟨_, heq⟩ := hmatch
      cases heq
    | .error .exit => exact ho
    | .error .edit => cases hmatch
  · intro hred
    obtain ⟨⟨out, hfin⟩, hall⟩ := interpret_of_reducesTo hsimulated hred
    obtain ⟨c', trace, rfl⟩ := hall out hfin
    exact ⟨c', trace, hfin⟩

end Simulated

/-- Hints that do nothing are tame, whatever the cache. -/
theorem simulated_of_isNoop (hbare : Bare env c)
    (hhints : OnlyHints (Hint.isNoop env ·) s f) : Simulated env false c s f where
  bare := hbare
  cache := by simp
  tame := fun i hi φ tag hφ htag => .inl (hhints i hi φ tag hφ htag)

/-- `interpret` meets its contract exactly where the reduction does not crash
in the edit of a Nock 10. -/
theorem followsRules_iff (env : Env Cold Warm) (c : Context Cold Warm) (s f : Noun)
    (hbare : Bare env c) (hhints : OnlyHints (Hint.isNoop env · = true) s f) :
    FollowsRules env c s f ↔ ¬ CrashesInEdit s f := by
  have hsimulated := simulated_of_isNoop hbare hhints
  constructor
  · rintro ⟨-, hexit⟩ hedit
    have hcrash := (finishes_exit_iff hsimulated).mp (hexit.mpr ⟨.edit, hedit⟩)
    exact absurd (hcrash.unique hedit) (by simp)
  intro hedit
  refine ⟨finishes_ok_iff hsimulated, (finishes_exit_iff hsimulated).trans ?_⟩
  constructor
  · exact fun h => ⟨.exit, h⟩
  · rintro ⟨reason, h⟩
    cases reason with
    | exit => exact h
    | edit => exact absurd h hedit

end

/-! ### Concrete runs -/

theorem bare_plain : Bare Env.plain plain where
  noJets := fun _ _ => rfl
  noScry := rfl
  live := by decide

/-- `[10 [0 1 0] 1 0]`: edit a constant at axis `0`. -/
def editAtZero : Noun :=
  .cell (.atom 10) (.cell (.cell (.atom 0) (.cell (.atom 1) (.atom 0))) (.cell (.atom 1) (.atom 0)))

theorem onlyHints_editAtZero : OnlyHints (Hint.isNoop Env.plain ·) (.atom 0) editAtZero := by
  intro i hreach
  -- the only formulas evaluated are the edit and its constant operands
  have hi : i = (.atom 0, editAtZero) ∨ i = (.atom 0, .cell (.atom 1) (.atom 0)) := by
    refine Reaches.closed (fun i => i = (.atom 0, editAtZero) ∨
      i = (.atom 0, .cell (.atom 1) (.atom 0))) (.inl rfl) ?_ hreach
    rintro i j (rfl | rfl) hask
    · cases hask with
      | here => exact .inr rfl
      | later _ hask =>
        cases hask with
        | here => exact .inr rfl
        | later _ hask =>
          simp only [hax_zero] at hask
          cases hask
    · cases hask
  intro φ tag hφ htag
  rcases hi with rfl | rfl
  · cases hφ; cases htag
  · cases hφ; cases htag

theorem crashesInEdit_editAtZero : CrashesInEdit (.atom 0) editAtZero := by
  have hconst : Evals rules (rules (.atom 0, .cell (.atom 1) (.atom 0))) (.ok (.atom 0)) :=
    .pure _
  refine .callOk hconst (.callOk hconst ?_)
  simp only [hax_zero]
  exact .fail _

theorem followsRules_iff_editAtZero : Bare Env.plain Context.plain ∧
    (FollowsRules Env.plain Context.plain (.atom 0) editAtZero ↔
      ¬ CrashesInEdit (.atom 0) editAtZero) :=
  ⟨bare_plain, followsRules_iff _ _ _ _ bare_plain onlyHints_editAtZero⟩

/-- An edit at axis `0` crashes by the rules and panics in the interpreter. -/
theorem interpret_editAtZero_panics : Reduces (.atom 0) editAtZero none ∧
    interpret Env.plain 8 Context.plain (.atom 0) editAtZero = some .panic ∧
    ¬ FollowsRules Env.plain Context.plain (.atom 0) editAtZero := by
  refine ⟨⟨_, crashesInEdit_editAtZero⟩, rfl, ?_⟩
  rintro ⟨-, hexit⟩
  have hcrash := (finishes_exit_iff (simulated_of_isNoop bare_plain onlyHints_editAtZero)).mp
    (hexit.mpr ⟨_, crashesInEdit_editAtZero⟩)
  exact absurd (hcrash.unique crashesInEdit_editAtZero) (by simp)

/-!
## What the memo cache may change

A `%memo` hint is meant to be transparent: with a cache that only remembers
values that bodies really have, a run should end as it would if the hint did
nothing but run its clue and its body, which is what the reduction rules say of
a hint.

`match_pre_hint` looks the body up before the clue has run, so a hit skips the
clue, and with it a crash of the clue. `transparent_iff_cluesRun` says that this
is all that goes wrong: every evaluation below a formula is transparent exactly
when no clue of a `%memo` hint fails on the way to a body that has a value.
-/

section

variable {Cold Warm : Type}

/-- An error or a panic. -/
def Outcome.Fails : Outcome Cold Warm → Prop
  | .ok _ _ => False
  | .err _ _ => True
  | .panic => True

/-- Whatever sound cache a run starts with, it ends as the rules say: with
their value if they have one, and in a failure if they crash. -/
def Transparent (env : Env Cold Warm) (c : Context Cold Warm) (s f : Noun) : Prop :=
  ∀ cache, SoundCache cache → (∀ r, (∃ c', Finishes env { c with cache := cache } s f (.ok c' r))
      ↔ Reduces s f (some r)) ∧
    ((∃ out, Finishes env { c with cache := cache } s f out ∧ out.Fails) ↔ Reduces s f none)

/-- The clue of every `%memo` hint that the reduction of `*[s f]` evaluates has
a value, if the body of the hint has one. -/
def CluesRun (s f : Noun) : Prop :=
  ∀ i, Reaches rules (s, f) i → ∀ φ, Formula.of i.2 = some φ →
    φ.hintTag = some (Noun.tas "memo") → ClueRuns i.1 φ

/-- The tags of the hints that are `%memo` hints or do nothing. -/
def Hint.IsMemoOrNoop (env : Env Cold Warm) (tag : Nat) : Prop :=
  isNoop env tag = true ∨ tag = Noun.tas "memo"

variable {env : Env Cold Warm} {memo : Bool} {c : Context Cold Warm} {s f : Noun}

theorem Bare.setCache (h : Bare env c) (cache : List (Noun × Noun)) :
    Bare env { c with cache := cache } where
  noJets := h.noJets
  noScry := h.noScry
  live := by
    have hlive := h.live
    unfold tick at hlive ⊢
    cases hc : c.cancels with
    | nil | cons now rest => simpa [hc] using hlive

/-- A simulated run fails exactly when the rules crash. -/
theorem finishes_fails_iff (hsimulated : Simulated env memo c s f) :
    (∃ out, Finishes env c s f out ∧ out.Fails) ↔ Reduces s f none := by
  constructor
  · intro ⟨out, hfin, hfails⟩
    obtain ⟨o, ho, hmatch⟩ := reducesTo_of_finishes hsimulated hfin
    cases o with
    | ok r =>
      obtain ⟨c', rfl⟩ := hmatch
      exact hfails.elim
    | error reason => exact ⟨reason, ho⟩
  · intro ⟨reason, ho⟩
    obtain ⟨⟨out, hfin⟩, hall⟩ := interpret_of_reducesTo hsimulated ho
    refine ⟨out, hfin, ?_⟩
    have hmatch := hall out hfin
    cases reason with
    | exit =>
      obtain ⟨c', trace, rfl⟩ := hmatch
      trivial
    | edit =>
      cases hmatch
      trivial

/-- Where the clues run, a formula is transparent. -/
theorem transparent_of_cluesRun (hbare : Bare env c)
    (hhints : OnlyHints (Hint.IsMemoOrNoop env) s f) (hclues : CluesRun s f) :
    Transparent env c s f := by
  intro cache hcache
  have htame : ∀ i, Reaches rules (s, f) i → Tame env true i := by
    intro i hi φ tag hφ htag
    rcases hhints i hi φ tag hφ htag with hnoop | rfl
    · exact .inl hnoop
    · exact .inr ⟨⟨rfl, rfl⟩, hclues i hi φ hφ htag⟩
  have hsimulated : Simulated env true { c with cache := cache } s f :=
    ⟨hbare.setCache cache, fun _ => hcache, htame⟩
  exact ⟨finishes_ok_iff hsimulated, finishes_fails_iff hsimulated⟩

/-- A cached body ends a run at the hint, before the clue is looked at. -/
theorem finishes_cached {b d r : Noun} (hbare : Bare env c)
    (hf : Formula.of f = some (.clue (Noun.tas "memo") b d))
    (hlookup : c.cache.lookup (.cell s d) = some r) (hcache : SoundCache c.cache) :
    ∃ c', Finishes env c s f (.ok c' r) := by
  -- the machine after the formula has been pushed
  let m := (start c s).setStack ((start c s).context.stack.push
    (.work11D .computeHint (Noun.tas "memo") b d false))
  have hpush : (start c s).tryPush f true = .next m := by
    simp only [Machine.tryPush, pushFormula_eq, hf]
    rfl
  have hat : AtWork true (start c s).context s
      (.work11D .computeHint (Noun.tas "memo") b d false) m := by
    refine ⟨rfl, ⟨rfl, rfl, fun _ => ?_⟩, rfl⟩
    show SoundCache c.tick.cache
    rwa [tick_cache]
  have hhit : m.context.tick.cache.lookup (.cell m.subject d) = some r := by
    rw [tick_cache]
    show c.tick.cache.lookup (.cell s d) = some r
    rw [tick_cache, hlookup]
  have hsim : SimStep env c.save c.stack.framePointer (some (.ok r)) 0 ((start c s).tryPush f true)
      (Returned true (start c s).context s true) := by
    rw [hpush]
    refine (Sim.finish hat fun recur => ?_).lower
    have hpre : Hint.matchPreHint env recur m.context.tick m.subject (Noun.tas "memo") b d
        = .found m.context.tick (.ok r) := by
      unfold Hint.matchPreHint
      rw [if_neg (by decide), if_pos rfl, hhit]
    simp [stepWork, stepWork11D, hpre]
  obtain ⟨⟨out, hfin⟩, hall⟩ := interpret_of_sim hbare.live hsim
  obtain ⟨c', rfl⟩ := hall out hfin
  exact ⟨c', hfin⟩

/-- A transparent `%memo` hint has a clue that runs: otherwise the cache that
remembers the value of its body would give the hint a value. -/
theorem clueRuns_of_transparent (hbare : Bare env c) (htrans : Transparent env c s f)
    {φ : Formula} (hφ : Formula.of f = some φ) (htag : φ.hintTag = some (Noun.tas "memo")) :
    ClueRuns s φ := by
  cases φ with
  | clue tag b d =>
    cases htag
    intro r hd
    have hcache : SoundCache [(.cell s d, r)] :=
      SoundCache.cons (fun _ _ _ h => by cases h) hd
    have hfin := finishes_cached (hbare.setCache _) hφ (List.lookup_cons_self ..) hcache
    have hred : ReducesTo s f (.ok r) := ((htrans _ hcache).1 r).mp hfin
    simp only [ReducesTo, rules, hφ] at hred
    cases hred with
    | callOk hv _ => exact ⟨_, hv⟩
  | _ => trivial

/-- The memo cache is transparent for everything that a formula evaluates
exactly where the clues of its `%memo` hints run. -/
theorem transparent_iff_cluesRun (env : Env Cold Warm) (c : Context Cold Warm) (s f : Noun)
    (hbare : Bare env c) (hhints : OnlyHints (Hint.IsMemoOrNoop env) s f) :
    (∀ i, Reaches rules (s, f) i → Transparent env c i.1 i.2) ↔ CluesRun s f := by
  constructor
  · intro htrans i hi φ hφ htag
    exact clueRuns_of_transparent hbare (htrans i hi) hφ htag
  · intro hclues i hi
    -- what `i` reaches is reached from the formula
    exact transparent_of_cluesRun hbare (fun j hj => hhints j (hi.trans hj))
      fun j hj => hclues j (hi.trans hj)

end

/-! ### A clue that crashes -/

/-- `[11 [%memo 0 0] 1 5]`. -/
def crashingClue : Noun :=
  .cell (.atom 11) (.cell (.cell (.atom (Noun.tas "memo")) (.cell (.atom 0) (.atom 0)))
    (.cell (.atom 1) (.atom 5)))

/-- The clue `[0 0]` crashes. -/
theorem rules_slotZero (s : Noun) : rules (s, .cell (.atom 0) (.atom 0)) = .fail .exit := by
  show Prog.ofOption Crash.exit (fas 0 s) = _
  rw [fas]
  rfl

/-- The cache after `[1 5]` was evaluated against `0`. -/
def cacheOfFive : List (Noun × Noun) :=
  [(.cell (.atom 0) (.cell (.atom 1) (.atom 5)), .atom 5)]

theorem soundCache_cacheOfFive : SoundCache cacheOfFive :=
  SoundCache.cons (fun _ _ _ h => by cases h) (.pure _)

theorem onlyHints_crashingClue :
    OnlyHints (Hint.IsMemoOrNoop Env.plain) (.atom 0) crashingClue := by
  intro i hreach φ tag hφ htag
  -- only the hint itself is a hint
  have hi : i = (.atom 0, crashingClue) ∨ i = (.atom 0, .cell (.atom 0) (.atom 0)) := by
    refine Reaches.closed (fun i => i = (.atom 0, crashingClue) ∨
      i = (.atom 0, .cell (.atom 0) (.atom 0))) (.inl rfl) ?_ hreach
    intro i j hi hask
    rcases hi with rfl | rfl
    · cases hask with
      | here => exact .inr rfl
      | later hclue _ =>
        rw [rules_slotZero] at hclue
        cases hclue
    · rw [rules_slotZero] at hask
      cases hask
  rcases hi with rfl | rfl
  · cases hφ
    cases htag
    exact .inr rfl
  · cases hφ
    cases htag

theorem transparent_iff_cluesRun_crashingClue : Bare Env.plain Context.plain ∧
    OnlyHints (Hint.IsMemoOrNoop Env.plain) (.atom 0) crashingClue ∧
    ((∀ i, Reaches rules (.atom 0, crashingClue) i →
        Transparent Env.plain Context.plain i.1 i.2) ↔ CluesRun (.atom 0) crashingClue) :=
  ⟨bare_plain, onlyHints_crashingClue,
    transparent_iff_cluesRun _ _ _ _ bare_plain onlyHints_crashingClue⟩

/-- The clue crashes, so the rules crash and so does a run with an empty cache;
with the body in the cache the run returns its value. -/
theorem not_transparent_crashingClue : SoundCache cacheOfFive ∧
    Reduces (.atom 0) crashingClue none ∧
    (∃ c trace, interpret Env.plain 8 Context.plain (.atom 0) crashingClue
      = some (.err c (.deterministic .exit trace))) ∧
    (∃ c, interpret Env.plain 8 { Context.plain with cache := cacheOfFive } (.atom 0)
      crashingClue = some (.ok c (.atom 5))) ∧
    ¬ Transparent Env.plain plain (.atom 0) crashingClue := by
  have hclue : Evals rules (rules (.atom 0, .cell (.atom 0) (.atom 0))) (.error .exit) := by
    rw [rules_slotZero]
    exact .fail _
  have hcrash : ReducesTo (.atom 0) crashingClue (.error .exit) := .callError hclue
  refine ⟨soundCache_cacheOfFive, ⟨_, hcrash⟩, ⟨_, _, rfl⟩, ⟨_, rfl⟩, ?_⟩
  intro htrans
  have hred := ((htrans cacheOfFive soundCache_cacheOfFive).1 (.atom 5)).mp ⟨_, 8, rfl⟩
  exact absurd (hcrash.unique hred) (by simp)

end Nockchain.Vm
