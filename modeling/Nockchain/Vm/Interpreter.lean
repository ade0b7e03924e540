import Nockchain.Noun

/-!
# `Nockchain.Vm.Interpreter`: the work-stack interpreter

The model of `interpreter.rs`. `interpret` evaluates a formula against a
subject with an explicit stack of pending work: `pushFormula` turns a formula
into one item of work, and each turn of the loop (`step`) looks at the topmost
item and advances it by one phase. Items that must outlive a call live in
frames of their own (`NockStack`).

What a turn of the loop can lead to is `Step`. The source leaves the loop in
two ways, and the model keeps them apart: `break` (`Step.brk`) goes to the
common exit path, which settles the running counter and, on an error, unwinds
frames and restores the snapshot; `return` from inside the loop, which is what
`try_or_bail!` and `?` compile to (`Step.bail`), does neither.

Conventions:

* A Rust panic is the outcome `panic`; it leaves no context behind.
* `interpret` and its loop take fuel. `none` means only that the fuel ran
  out; every result of the code is a `some`.
* Jets, the hot and cold jet state and the trace printer `mook` are
  parameters (`Env`): their code is outside this model.
* Another thread may cancel a run at any time. `Context.cancels` is the
  schedule of those calls: one entry is consumed at each access to the
  running counter and at each turn of the loop (`tick`).
* Trace files and the slogger only write output and are left out.
-/

set_option autoImplicit false

namespace Nockchain.Vm

/-! ### Errors -/

inductive Mote where
  | exit
  | fail
  | intr
  | meme
  | jest
deriving DecidableEq, Repr

inductive Error where
  | scryBlocked (path : Noun)
  | scryCrashed (trace : Noun)
  | deterministic (mote : Mote) (trace : Noun)
  | nonDeterministic (mote : Mote) (trace : Noun)
deriving DecidableEq, Repr

/-- `BAIL_EXIT`. -/
def bailExit : Error := .deterministic .exit (.atom 0)

/-- `BAIL_FAIL`. -/
def bailFail : Error := .nonDeterministic .fail (.atom 0)

/-- `BAIL_INTR`. -/
def bailIntr : Error := .nonDeterministic .intr (.atom 0)

/-- `BAIL_JEST`. -/
def bailJest : Error := .nonDeterministic .jest (.atom 0)

/-! ### Work items

One constructor for each variant of `NockWork`, with the phase it is in. -/

inductive TodoCons where
  | computeHead
  | computeTail
  | cons
deriving DecidableEq, Repr

inductive Todo2 where
  | computeSubject
  | computeFormula
  | computeResult
  | restoreSubject
deriving DecidableEq, Repr

inductive Todo3 where
  | computeChild
  | computeType
deriving DecidableEq, Repr

inductive Todo4 where
  | computeChild
  | increment
deriving DecidableEq, Repr

inductive Todo5 where
  | computeLeftChild
  | computeRightChild
  | testEquals
deriving DecidableEq, Repr

inductive Todo6 where
  | computeTest
  | computeBranch
deriving DecidableEq, Repr

/-- The phases of `Todo7` and `Todo8`, which are the same. -/
inductive Todo78 where
  | computeSubject
  | computeResult
  | restoreSubject
deriving DecidableEq, Repr

inductive Todo9 where
  | computeCore
  | computeResult
  | restoreSubject
deriving DecidableEq, Repr

inductive Todo10 where
  | computeTree
  | computePatch
  | edit
deriving DecidableEq, Repr

inductive Todo11D where
  | computeHint
  | computeResult
  | done
deriving DecidableEq, Repr

inductive Todo11S where
  | computeResult
  | done
deriving DecidableEq, Repr

inductive Todo12 where
  | computeReff
  | computePath
  | scry
deriving DecidableEq, Repr

inductive NockWork where
  | done
  | ret
  | workCons (todo : TodoCons) (head tail : Noun)
  | work0 (axis : Nat)
  | work1 (noun : Noun)
  | work2 (todo : Todo2) (subject formula : Noun) (tail : Bool)
  | work3 (todo : Todo3) (child : Noun)
  | work4 (todo : Todo4) (child : Noun)
  | work5 (todo : Todo5) (left right : Noun)
  | work6 (todo : Todo6) (test zero once : Noun) (tail : Bool)
  | work7 (todo : Todo78) (subject formula : Noun) (tail : Bool)
  | work8 (todo : Todo78) (pin formula : Noun) (tail : Bool)
  | work9 (todo : Todo9) (axis : Nat) (core : Noun) (tail : Bool)
  | work10 (todo : Todo10) (axis : Nat) (tree patch : Noun)
  | work11D (todo : Todo11D) (tag : Nat) (hint body : Noun) (tail : Bool)
  | work11S (todo : Todo11S) (tag : Nat) (body : Noun) (tail : Bool)
  | work12 (todo : Todo12) (reff path : Noun)
deriving DecidableEq, Repr

/-! ### The stack

A frame holds the mean stack (its local slot 0) and the work pushed in it,
topmost first. -/

structure Frame where
  mean : Noun
  work : List NockWork
deriving DecidableEq, Repr

/-- The current frame and the frames below it. -/
structure NockStack where
  frame : Frame
  below : List Frame
deriving DecidableEq, Repr

namespace NockStack

/-- The frame pointer: which frame is current. Frames are pushed and popped in
order, so the number of frames below identifies it. -/
def framePointer (s : NockStack) : Nat := s.below.length

/-- `frame_push`, with the new frame's mean stack set at once, as all callers
do. -/
def framePush (s : NockStack) (mean : Noun) : NockStack :=
  { frame := { mean := mean, work := [] }, below := s.frame :: s.below }

/-- `frame_pop`; it panics at the base frame. -/
def framePop (s : NockStack) : Option NockStack :=
  match s.below with
  | [] => none
  | f :: fs => some { frame := f, below := fs }

/-- Replace the work of the current frame. -/
def setWork (s : NockStack) (ws : List NockWork) : NockStack :=
  { s with frame := { s.frame with work := ws } }

/-- `push` a work item. -/
def push (s : NockStack) (w : NockWork) : NockStack :=
  s.setWork (w :: s.frame.work)

/-- `pop` the topmost work item. -/
def pop (s : NockStack) : NockStack := s.setWork s.frame.work.tail

/-- Overwrite the topmost work item in place. -/
def setTop (s : NockStack) (w : NockWork) : NockStack :=
  s.setWork (w :: s.frame.work.tail)

/-- `mean_frame_push`. -/
def meanFramePush (s : NockStack) : NockStack := s.framePush s.frame.mean

/-- `mean_push`. -/
def meanPush (s : NockStack) (n : Noun) : NockStack :=
  { s with frame := { s.frame with mean := .cell n s.frame.mean } }

/-- `mean_pop`; it panics at the end of the mean stack. -/
def meanPop (s : NockStack) : Option NockStack :=
  match s.frame.mean with
  | .cell _ t => some { s with frame := { s.frame with mean := t } }
  | .atom _ => none

/-- The unwinding loop of `exit`: pop frames until the frame pointer is
`virtualFrame`. -/
def unwind (virtualFrame : Nat) (frame : Frame) : List Frame → Option NockStack
  | [] => if virtualFrame = 0 then some { frame := frame, below := [] } else none
  | f :: fs =>
    if (f :: fs).length = virtualFrame then some { frame := frame, below := f :: fs }
    else unwind virtualFrame f fs

end NockStack

/-! ### Formulas to work items -/

namespace Hint

/-- `hint::is_tail`. -/
def isTail (tag : Nat) : Bool :=
  !(tag == Noun.tas "fast" || tag == Noun.tas "memo")

end Hint

/-- `push_formula`. -/
def pushFormula (stack : NockStack) (formula : Noun) (tail : Bool) :
    Except Error NockStack :=
  match formula with
  | .cell (.cell h₁ h₂) t => .ok (stack.push (.workCons .computeHead (.cell h₁ h₂) t))
  | .cell (.atom 0) (.atom axis) => .ok (stack.push (.work0 axis))
  | .cell (.atom 1) noun => .ok (stack.push (.work1 noun))
  | .cell (.atom 2) (.cell s f) => .ok (stack.push (.work2 .computeSubject s f tail))
  | .cell (.atom 3) child => .ok (stack.push (.work3 .computeChild child))
  | .cell (.atom 4) child => .ok (stack.push (.work4 .computeChild child))
  | .cell (.atom 5) (.cell l r) => .ok (stack.push (.work5 .computeLeftChild l r))
  | .cell (.atom 6) (.cell test (.cell zero once)) =>
    .ok (stack.push (.work6 .computeTest test zero once tail))
  | .cell (.atom 7) (.cell s f) => .ok (stack.push (.work7 .computeSubject s f tail))
  | .cell (.atom 8) (.cell p f) => .ok (stack.push (.work8 .computeSubject p f tail))
  | .cell (.atom 9) (.cell (.atom axis) core) =>
    .ok (stack.push (.work9 .computeCore axis core tail))
  | .cell (.atom 10) (.cell (.cell (.atom axis) patch) tree) =>
    .ok (stack.push (.work10 .computeTree axis tree patch))
  | .cell (.atom 11) (.cell (.atom tag) body) =>
    .ok (stack.push (.work11S .computeResult tag body (tail && Hint.isTail tag)))
  | .cell (.atom 11) (.cell (.cell (.atom tag) hint) body) =>
    .ok (stack.push (.work11D .computeHint tag hint body (tail && Hint.isTail tag)))
  | .cell (.atom 12) (.cell reff path) =>
    .ok (stack.push (.work12 .computeReff reff path))
  | _ => .error bailExit

/-- The walk of `edit` down the tree: the patch takes the place of the subtree
at the end of the path. The `expect` on a non-cell is `none`. -/
def editAt (patch : Noun) : List Bool → Noun → Option Noun
  | [], _ => some patch
  | true :: bs, .cell h t => (editAt patch bs t).map (.cell h)
  | false :: bs, .cell h t => (editAt patch bs h).map (.cell · t)
  | _ :: _, .atom _ => none

/-- `edit`; `none` is a panic, at axis `0` or at an axis that runs through an
atom. -/
def edit (axis : Nat) (patch tree : Noun) : Option Noun :=
  if axis = 0 then none else editAt patch (Noun.axisBits axis) tree

/-! ### Context -/

/-- The fields of `Context` that the interpreter reads or writes, and the
schedule of cancellations still to come. -/
structure Context (Cold Warm : Type) where
  stack : NockStack
  cold : Cold
  warm : Warm
  cache : List (Noun × Noun)
  scryStack : Noun
  runningStatus : Int
  cancels : List Bool

structure ContextSnapshot (Cold Warm : Type) where
  cold : Cold
  warm : Warm
  cache : List (Noun × Noun)

/-- `NockCancelToken::cancel` on the counter: a running count is negated, an
idle or already cancelled one is left alone. -/
def cancel (running : Int) : Int :=
  if running ≤ 0 then running else -running

namespace Context

variable {Cold Warm : Type}

/-- `Context::save`. -/
def save (c : Context Cold Warm) : ContextSnapshot Cold Warm :=
  { cold := c.cold, warm := c.warm, cache := c.cache }

/-- `Context::restore`. -/
def restore (c : Context Cold Warm) (saved : ContextSnapshot Cold Warm) :
    Context Cold Warm :=
  { c with cold := saved.cold, warm := saved.warm, cache := saved.cache }

/-- Let the other thread cancel now, if the schedule says so. -/
def tick (c : Context Cold Warm) : Context Cold Warm :=
  match c.cancels with
  | [] => c
  | now :: rest =>
    { c with
      runningStatus := if now then cancel c.runningStatus else c.runningStatus
      cancels := rest }

end Context

/-- What a jet returns. -/
inductive JetResult where
  | ok (noun : Noun)
  | punt
  | fail (error : Error)
  | panic
deriving DecidableEq, Repr

/-- A jet: it may change the context it is handed. -/
abbrev Jet (Cold Warm : Type) : Type :=
  Context Cold Warm → Noun → Context Cold Warm × JetResult

/-- What `interpret` can do: return `Ok`, return `Err`, or panic. -/
inductive Outcome (Cold Warm : Type) where
  | ok (context : Context Cold Warm) (noun : Noun)
  | err (context : Context Cold Warm) (error : Error)
  | panic

/-- The parts of the virtual machine the interpreter calls into, and the two
build features it tests. -/
structure Env (Cold Warm : Type) where
  /-- `cfg!(feature = "sham_hints")` -/
  shamHints : Bool
  /-- `cfg!(feature = "hint_dont")` -/
  hintDont : Bool
  /-- `Warm::find_jet`: the jet for a core and a formula, and whether it is
  to be tested against the formula. -/
  findJet : Warm → Noun → Noun → Option (Jet Cold Warm × Bool)
  /-- `jets::get_jet` -/
  getJet : Noun → Option (Jet Cold Warm)
  /-- `Cold::register`: the new cold state, and whether the call returned
  `Ok(true)`. Its other results are only logged. -/
  register : Cold → Noun → Nat → Noun → Cold × Bool
  /-- `Warm::init`, with the hot state and the list of jets under test -/
  warmInit : Cold → Warm
  /-- `mook`, called by `%hela`: the head of the `$toon` it returns, or an
  error. The tail is only printed. -/
  mook : Context Cold Warm → Noun → Context Cold Warm × Except Error Noun

/-- `jets::get_jet_test_mode`. -/
def getJetTestMode (_jetName : Noun) : Bool := false

section

variable {Cold Warm : Type}

/-- A nested call of `interpret`; `none` when it runs out of fuel. -/
abbrev Recur (Cold Warm : Type) : Type :=
  Context Cold Warm → Noun → Noun → Option (Outcome Cold Warm)

/-! ### Hints -/

/-- The `Option<Result>` of the hint functions, with the context they leave. -/
inductive HintResult (Cold Warm : Type) where
  | pass (context : Context Cold Warm)
  | found (context : Context Cold Warm) (result : Except Error Noun)
  | panic
  | outOfFuel

namespace Hint

/-- The tags whose clue is pushed on the mean stack. -/
def isMean (tag : Nat) : Bool :=
  tag == Noun.tas "hand" || tag == Noun.tas "hunk" || tag == Noun.tas "lose"
    || tag == Noun.tas "mean" || tag == Noun.tas "spot"

/-- `hint::match_pre_hint`. -/
def matchPreHint (env : Env Cold Warm) (recur : Recur Cold Warm)
    (context : Context Cold Warm) (subject : Noun) (tag : Nat) (hint body : Noun) :
    HintResult Cold Warm :=
  if tag = Noun.tas "sham" then
    if env.shamHints then
      match hint with
      | .atom _ => .pass context
      | .cell _ jetName =>
        match env.getJet jetName with
        | none => .pass context
        | some jet =>
          match jet context subject with
          | (context, .ok jetRes) =>
            if getJetTestMode jetName then
              match recur context subject body with
              | none => .outOfFuel
              | some .panic => .panic
              | some (.ok context nockRes) =>
                .found context (if nockRes = jetRes then .ok nockRes else .error bailExit)
              | some (.err context (.nonDeterministic mote _)) =>
                .found context (.error (.nonDeterministic mote (.atom 0)))
              | some (.err context _) => .found context (.error bailExit)
            else .found context (.ok jetRes)
          | (context, .punt) => .pass context
          | (context, .fail error) => .found context (.error error)
          | (_, .panic) => .panic
    else .pass context
  else if tag = Noun.tas "memo" then
    match context.cache.lookup (.cell subject body) with
    | some found => .found context (.ok found)
    | none => .pass context
  else .pass context

/-- `hint::match_pre_nock`. -/
def matchPreNock (env : Env Cold Warm) (recur : Recur Cold Warm)
    (context : Context Cold Warm) (subject : Noun) (tag : Nat)
    (hint : Option (Noun × Noun)) (body : Noun) : HintResult Cold Warm :=
  if tag = Noun.tas "dont" then
    if env.hintDont then .found context (.error bailFail) else .pass context
  else if tag = Noun.tas "bout" then
    match recur context subject body with
    | none => .outOfFuel
    | some .panic => .panic
    | some (.ok context res) => .found context (.ok res)
    | some (.err context error) => .found context (.error error)
  else if isMean tag then
    match hint with
    | none => .pass context
    | some (_, clue) =>
      .pass { context with stack := context.stack.meanPush (.cell (.atom tag) clue) }
  else if tag = Noun.tas "hela" then
    match env.mook context (.cell (.atom 2) context.stack.frame.mean) with
    | (_, .error _) => .panic
    | (context, .ok head) => if head = .atom 2 then .pass context else .panic
  else .pass context

/-- The loop of the `%fast` hint that strips hints off the parent formula. -/
def stripHints : Noun → Option Noun
  | .cell (.atom 11) (.cell _ body) => stripHints body
  | .cell (.atom 11) (.atom _) => none
  | .cell h t => some (.cell h t)
  | .atom _ => none

/-- The chum and the parent axis of a `%fast` clue, if it has them, the opcode
of the parent formula is a direct atom, and the parent formula is not a root
with a nonzero axis. -/
def fastClue (clue : Noun) : Option (Noun × Nat) :=
  match clue.slot 2, (clue.slot 6).bind stripHints with
  | some chum, some (.cell (.atom op) (.atom axis)) =>
    if 2 ^ 63 ≤ op ∨ (op = 1 ∧ axis ≠ 0) then none else some (chum, axis)
  | _, _ => none

/-- `hint::match_post_nock`; `none` is a panic. It never replaces the result. -/
def matchPostNock (env : Env Cold Warm) (context : Context Cold Warm) (subject : Noun)
    (tag : Nat) (hint : Option Noun) (body res : Noun) : Option (Context Cold Warm) :=
  if tag = Noun.tas "memo" then
    some { context with cache := (.cell subject body, res) :: context.cache }
  else if isMean tag then
    context.stack.meanPop.map fun stack => { context with stack := stack }
  else if tag = Noun.tas "fast" then
    if env.shamHints then some context
    else
      match hint.bind fastClue with
      | none => some context
      | some (chum, axis) =>
        match env.register context.cold res axis chum with
        | (cold, true) => some { context with cold := cold, warm := env.warmInit cold }
        | (cold, false) => some { context with cold := cold }
  else some context

end Hint

/-! ### The loop -/

/-- The variables of the loop: the context, the subject and the last result. -/
structure Machine (Cold Warm : Type) where
  context : Context Cold Warm
  subject : Noun
  res : Noun

/-- What one turn of the loop leads to. -/
inductive Step (Cold Warm : Type) where
  /-- the next turn -/
  | next (m : Machine Cold Warm)
  /-- `break`: on to the common exit path -/
  | brk (context : Context Cold Warm) (result : Except Error Noun)
  /-- `return Err(..)` from inside the loop -/
  | bail (context : Context Cold Warm) (error : Error)
  | panic
  /-- a nested call ran out of fuel -/
  | outOfFuel

namespace Machine

/-- Replace the stack. -/
def setStack (m : Machine Cold Warm) (stack : NockStack) : Machine Cold Warm :=
  { m with context := { m.context with stack := stack } }

/-- `pop` the topmost work item. -/
def pop (m : Machine Cold Warm) : Machine Cold Warm := m.setStack m.context.stack.pop

/-- Overwrite the topmost work item in place. -/
def setTop (m : Machine Cold Warm) (w : NockWork) : Machine Cold Warm :=
  m.setStack (m.context.stack.setTop w)

/-- `try_or_bail!(push_formula(..))`. -/
def tryPush (m : Machine Cold Warm) (formula : Noun) (tail : Bool) : Step Cold Warm :=
  match pushFormula m.context.stack formula tail with
  | .ok stack => .next (m.setStack stack)
  | .error error => .bail m.context error

/-- Finish the topmost item with a result. -/
def finish (m : Machine Cold Warm) (res : Noun) : Step Cold Warm :=
  .next { m.pop with res := res }

/-- Call a formula in a frame of its own: `mean_frame_push`, `Ret`, then the
formula in tail position. -/
def callInFrame (m : Machine Cold Warm) (subject formula : Noun) : Step Cold Warm :=
  { m.setStack (m.context.stack.meanFramePush.push .ret) with subject := subject }.tryPush
    formula true

end Machine

/-- `cold_paths::step_work2`. -/
def stepWork2 (m : Machine Cold Warm) (todo : Todo2) (subject formula : Noun) (tail : Bool) :
    Step Cold Warm :=
  match todo with
  | .computeSubject =>
    (m.setTop (.work2 .computeFormula subject formula tail)).tryPush subject false
  | .computeFormula =>
    (m.setTop (.work2 .computeResult m.res formula tail)).tryPush formula false
  | .computeResult =>
    if tail then { m.pop with subject := subject }.tryPush m.res true
    else
      (m.setTop (.work2 .restoreSubject m.subject formula tail)).callInFrame subject m.res
  | .restoreSubject => .next { m.pop with subject := subject }

/-- The `Work9` arm of the loop once the core is computed and its arm found to
have no jet, or a jet that punts. -/
def callArm (m : Machine Cold Warm) (axis : Nat) (tail : Bool) (formula : Noun) :
    Step Cold Warm :=
  if tail then { m.pop with subject := m.res }.tryPush formula true
  else (m.setTop (.work9 .restoreSubject axis m.subject tail)).callInFrame m.res formula

/-- The `Work9` arm of the loop. -/
def stepWork9 (env : Env Cold Warm) (recur : Recur Cold Warm) (m : Machine Cold Warm)
    (todo : Todo9) (axis : Nat) (core : Noun) (tail : Bool) :
    Step Cold Warm :=
  match todo with
  | .computeCore => (m.setTop (.work9 .computeResult axis core tail)).tryPush core false
  | .computeResult =>
    match m.res.slot axis with
    | none => .brk m.context (.error bailExit)
    | some formula =>
      match if env.shamHints then none else env.findJet m.context.warm m.res formula with
      | none => callArm m axis tail formula
      | some (jet, test) =>
        match jet m.context m.res with
        | (context, .punt) => callArm { m with context := context } axis tail formula
        | (context, .fail error) => .brk context (.error error)
        | (_, .panic) => .panic
        | (context, .ok jetRes) =>
          if test then
            match recur context m.res formula with
            | none => .outOfFuel
            | some .panic => .panic
            | some (.err context error) => .bail context error
            | some (.ok context testRes) =>
              if testRes = jetRes then
                { m with context := context }.finish jetRes
              else .brk context (.error bailJest)
          else { m with context := context }.finish jetRes
  | .restoreSubject => .next { m.pop with subject := core }

/-- The `Work11D` arm of the loop. -/
def stepWork11D (env : Env Cold Warm) (recur : Recur Cold Warm) (m : Machine Cold Warm)
    (todo : Todo11D) (tag : Nat) (hint body : Noun) (tail : Bool) :
    Step Cold Warm :=
  match todo with
  | .computeHint =>
    match Hint.matchPreHint env recur m.context m.subject tag hint body with
    | .found context (.ok found) => { m with context := context }.finish found
    | .found context (.error error) => .brk context (.error error)
    | .panic => .panic
    | .outOfFuel => .outOfFuel
    | .pass context =>
      ({ m with context := context }.setTop
        (.work11D .computeResult tag hint body tail)).tryPush hint false
  | .computeResult =>
    match Hint.matchPreNock env recur m.context m.subject tag (some (hint, m.res)) body with
    | .found context (.ok found) => { m with context := context }.finish found
    | .found context (.error error) => .brk context (.error error)
    | .panic => .panic
    | .outOfFuel => .outOfFuel
    | .pass context =>
      let m' := { m with context := context }
      (if tail then m'.pop else m'.setTop (.work11D .done tag m.res body tail)).tryPush body tail
  | .done =>
    match Hint.matchPostNock env m.context m.subject tag (some hint) body m.res with
    | none => .panic
    | some context => { m with context := context }.finish m.res

/-- `cold_paths::step_work11s`. Its errors, a malformed body included, leave
the loop by `break`. -/
def stepWork11S (env : Env Cold Warm) (recur : Recur Cold Warm) (m : Machine Cold Warm)
    (todo : Todo11S) (tag : Nat) (body : Noun) (tail : Bool) :
    Step Cold Warm :=
  match todo with
  | .computeResult =>
    match Hint.matchPreNock env recur m.context m.subject tag none body with
    | .found context (.ok found) => { m with context := context }.finish found
    | .found context (.error error) => .brk context (.error error)
    | .panic => .panic
    | .outOfFuel => .outOfFuel
    | .pass context =>
      let m' := { m with context := context }
      let m' := if tail then m'.pop else m'.setTop (.work11S .done tag body tail)
      match pushFormula m'.context.stack body tail with
      | .ok stack => .next (m'.setStack stack)
      | .error error => .brk m'.context (.error error)
  | .done =>
    match Hint.matchPostNock env m.context m.subject tag none body m.res with
    | none => .panic
    | some context => { m with context := context }.finish m.res

/-- What `step_work12` makes of the answer of the scry gate. -/
def scryAnswer (m : Machine Cold Warm) (scryStack reff path : Noun) :
    Outcome Cold Warm → Step Cold Warm
  | .ok context (.cell _ (.cell _ res)) =>
    { m with context := { context with scryStack := scryStack } }.finish res
  | .ok context (.cell _ (.atom _)) =>
    let hunk := .cell (.atom (Noun.tas "hunk")) (.cell reff path)
    .bail { context with stack := context.stack.meanPush hunk } (.scryCrashed (.atom 0))
  | .ok context (.atom 0) => .bail context (.scryBlocked path)
  | .ok context (.atom _) => .bail context (.scryCrashed (.atom 0))
  | .err context (.deterministic _ trace) => .bail context (.scryCrashed trace)
  | .err context (.scryCrashed trace) => .bail context (.scryCrashed trace)
  | .err context (.nonDeterministic mote trace) => .bail context (.nonDeterministic mote trace)
  | .err context (.scryBlocked _) => .bail context bailFail
  | .panic => .panic

/-- `cold_paths::step_work12`. -/
def stepWork12 (recur : Recur Cold Warm) (m : Machine Cold Warm) (todo : Todo12)
    (reff path : Noun) : Step Cold Warm :=
  match todo with
  | .computeReff => (m.setTop (.work12 .computePath reff path)).tryPush reff false
  | .computePath => (m.setTop (.work12 .scry m.res path)).tryPush path false
  | .scry =>
    match m.context.scryStack with
    | .atom _ => .bail m.context bailExit
    | .cell (.cell battery (.cell _ payload)) scryTail =>
      let m' := m.setTop (.work12 .scry reff m.res)
      let core := .cell battery (.cell (.cell reff m.res) payload)
      let form := .cell (.atom 9) (.cell (.atom 2) (.cell (.atom 1) core))
      match recur { m'.context with scryStack := scryTail } (.atom 0) form with
      | none => .outOfFuel
      | some outcome => scryAnswer m' m.context.scryStack reff m.res outcome
    | .cell _ _ => .bail (m.setTop (.work12 .scry reff m.res)).context bailExit

/-- `Ret` and `Done` pop the frame they are in. -/
def popFrame (m : Machine Cold Warm) : Option (Machine Cold Warm) :=
  m.context.stack.framePop.map m.setStack

/-- The arms of the loop of `interpret`, by the topmost work item. -/
def stepWork (env : Env Cold Warm) (recur : Recur Cold Warm) (m : Machine Cold Warm) :
    NockWork → Step Cold Warm
  | .done =>
    match popFrame m with
    | none => .panic
    | some m => .brk m.context (.ok m.res)
  | .ret =>
    match popFrame m with
    | none => .panic
    | some m => .next m
  | .workCons .computeHead h t =>
    (m.setTop (.workCons .computeTail h t)).tryPush h false
  | .workCons .computeTail _ t =>
    (m.setTop (.workCons .cons m.res t)).tryPush t false
  | .workCons .cons h _ => m.finish (.cell h m.res)
  | .work0 axis =>
    match m.subject.slot axis with
    | some noun => m.finish noun
    | none => .brk m.context (.error bailExit)
  | .work1 noun => m.finish noun
  | .work2 todo subject formula tail => stepWork2 m todo subject formula tail
  | .work3 .computeChild child =>
    (m.setTop (.work3 .computeType child)).tryPush child false
  | .work3 .computeType _ => m.finish (.atom (if m.res.isCell then 0 else 1))
  | .work4 .computeChild child =>
    (m.setTop (.work4 .increment child)).tryPush child false
  | .work4 .increment _ =>
    match m.res with
    | .atom a => m.finish (.atom (a + 1))
    | .cell _ _ => .brk m.context (.error bailExit)
  | .work5 .computeLeftChild l r =>
    (m.setTop (.work5 .computeRightChild l r)).tryPush l false
  | .work5 .computeRightChild _ r =>
    (m.setTop (.work5 .testEquals m.res r)).tryPush r false
  | .work5 .testEquals l _ => m.finish (.atom (if l = m.res then 0 else 1))
  | .work6 .computeTest test zero once tail =>
    (m.setTop (.work6 .computeBranch test zero once tail)).tryPush test false
  | .work6 .computeBranch _ zero once tail =>
    match m.res with
    | .atom 0 => m.pop.tryPush zero tail
    | .atom 1 => m.pop.tryPush once tail
    | _ => .brk m.pop.context (.error bailExit)
  | .work7 .computeSubject subject formula tail =>
    (m.setTop (.work7 .computeResult subject formula tail)).tryPush subject false
  | .work7 .computeResult _ formula tail =>
    if tail then { m.pop with subject := m.res }.tryPush formula true
    else
      { m.setTop (.work7 .restoreSubject m.subject formula tail) with
        subject := m.res }.tryPush formula false
  | .work7 .restoreSubject subject _ _ =>
    .next { m.pop with subject := subject }
  | .work8 .computeSubject pin formula tail =>
    (m.setTop (.work8 .computeResult pin formula tail)).tryPush pin false
  | .work8 .computeResult _ formula tail =>
    if tail then
      { m.pop with subject := .cell m.res m.subject }.tryPush formula true
    else
      { m.setTop (.work8 .restoreSubject m.subject formula tail) with
        subject := .cell m.res m.subject }.tryPush formula false
  | .work8 .restoreSubject pin _ _ => .next { m.pop with subject := pin }
  | .work9 todo axis core tail => stepWork9 env recur m todo axis core tail
  | .work10 .computeTree axis tree patch =>
    (m.setTop (.work10 .computePatch axis tree patch)).tryPush tree false
  | .work10 .computePatch axis _ patch =>
    (m.setTop (.work10 .edit axis m.res patch)).tryPush patch false
  | .work10 .edit axis tree _ =>
    match edit axis m.res tree with
    | some noun => m.finish noun
    | none => .panic
  | .work11D todo tag hint body tail =>
    stepWork11D env recur m todo tag hint body tail
  | .work11S todo tag body tail => stepWork11S env recur m todo tag body tail
  | .work12 todo reff path => stepWork12 recur m todo reff path

/-- One turn of the loop of `interpret`. Where there is no work the source
would read beyond the frame; `panic` stands for that. -/
def step (env : Env Cold Warm) (recur : Recur Cold Warm) (m : Machine Cold Warm) :
    Step Cold Warm :=
  match m.context.stack.frame.work with
  | [] => .panic
  | w :: _ => stepWork env recur m w

/-! ### Entry and exit -/

/-- The trace `exit` returns: the error's own trace, welded to the mean stack;
the mean stack alone if they are not both lists. -/
def weldTrace (trace mean : Noun) : Noun :=
  match trace.toList, mean.toList with
  | some t, some h => Noun.ofList (t ++ h)
  | _, _ => mean

/-- The error `exit` returns. -/
def exitError (mean : Noun) : Error → Error
  | .scryBlocked path => .scryBlocked path
  | .scryCrashed trace => .scryCrashed (weldTrace trace mean)
  | .deterministic mote trace => .deterministic mote (weldTrace trace mean)
  | .nonDeterministic mote trace => .nonDeterministic mote (weldTrace trace mean)

/-- `exit`: restore the snapshot, collect the trace, unwind to the caller's
frame. -/
def exit (context : Context Cold Warm) (snapshot : ContextSnapshot Cold Warm)
    (virtualFrame : Nat) (error : Error) : Outcome Cold Warm :=
  let context := context.restore snapshot
  match NockStack.unwind virtualFrame context.stack.frame context.stack.below with
  | none => .panic
  | some stack =>
    .err { context with stack := stack } (exitError context.stack.frame.mean error)

/-- The counter on the common exit path: one step back towards idle. -/
def leaveStatus (running : Int) : Int :=
  if running < 0 then running + 1 else if running = 0 then running else running - 1

/-- The common exit path. -/
def leave (context : Context Cold Warm) (snapshot : ContextSnapshot Cold Warm)
    (virtualFrame : Nat) (result : Except Error Noun) : Outcome Cold Warm :=
  let context := context.tick
  let context := { context with runningStatus := leaveStatus context.runningStatus }
  match result with
  | .ok res => .ok context res
  | .error error => exit context snapshot virtualFrame error

/-- The loop of `interpret`, for at most the given number of turns. -/
def loop (env : Env Cold Warm) (recur : Recur Cold Warm)
    (snapshot : ContextSnapshot Cold Warm) (virtualFrame : Nat) :
    Nat → Machine Cold Warm → Option (Outcome Cold Warm)
  | 0, _ => none
  | n + 1, m =>
    match step env recur { m with context := m.context.tick } with
    | .next m => loop env recur snapshot virtualFrame n m
    | .brk context result => some (leave context snapshot virtualFrame result)
    | .bail context error => some (.err context error)
    | .panic => some .panic
    | .outOfFuel => none

/-- The set-up of `interpret`: count the run, push a frame, push `Done`. -/
def enter (context : Context Cold Warm) : Context Cold Warm :=
  { context with
    runningStatus := context.runningStatus + 1
    stack := (context.stack.framePush (.atom 0)).push .done }

/-- `interpret`. Fuel bounds both the turns of the loop and the nesting of
calls. -/
def interpret (env : Env Cold Warm) : Nat → Recur Cold Warm
  | 0, _, _, _ => none
  | fuel + 1, context, subject, formula =>
    let snapshot := context.save
    let virtualFrame := context.stack.framePointer
    let context := context.tick
    if context.runningStatus < 0 then
      some (exit context snapshot virtualFrame bailIntr)
    else
      match pushFormula (enter context).stack formula true with
      | .error error => some (.err (enter context) error)
      | .ok stack =>
        loop env (interpret env fuel) snapshot virtualFrame fuel
          { context := { enter context with stack := stack }
            subject := subject
            res := .atom 0 }

/-! ### A machine with no jets -/

/-- No jets, no cold state, no build features. -/
def Env.plain : Env Unit Unit where
  shamHints := false
  hintDont := false
  findJet := fun _ _ _ => none
  getJet := fun _ => none
  register := fun _ _ _ _ => ((), false)
  warmInit := fun _ => ()
  mook := fun context _ => (context, .ok (.atom 2))

/-- An idle context with an empty stack and an empty cache. -/
def Context.plain : Context Unit Unit where
  stack := { frame := { mean := .atom 0, work := [] }, below := [] }
  cold := ()
  warm := ()
  cache := []
  scryStack := .atom 0
  runningStatus := 0
  cancels := []

end

end Nockchain.Vm
