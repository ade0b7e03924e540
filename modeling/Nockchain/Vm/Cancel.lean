import Nockchain.Lib.Fold

/-!
# `Nockchain.Vm.Cancel`: the running status and its cancel token

The interpreter and the holders of a `NockCancelToken` share one word,
`running_status`. Its magnitude counts the open calls of `interpret` and its sign
carries the request to cancel. Both sides change it by a loop that loads the word
and then tries one compare-and-swap, so a load may be stale by the time of the
swap. Here every load and every swap is one step of the system, and an `Action`
says who moves: the schedule is any list of them.

`Nockchain.Vm.Interpreter` keeps the whole of `interpret` and folds such a loop
into one access. This module keeps the loops and forgets what is computed.

The word is an `Int`. The source has an `isize`, and each open call holds a frame
of the native stack, so the count stays far below its bound.
-/

set_option autoImplicit false

namespace Nockchain.Vm.Cancel

/-- `compare_exchange`: the word after it, and whether it succeeded. -/
def compareExchange (word current new : Int) : Int × Bool :=
  if word = current then (new, true) else (word, false)

/-- Where the thread of the interpreter is. `running` is between two accesses to the word: in the
innermost open call or, where none is open, in the host. -/
inductive InterpretPc where
  | running
  | entry
  | entrySwap (runningStatus : Int)
  | exit
  | exitSwap (runningStatus : Int)
deriving DecidableEq, Repr

/-- Where a holder of the token is. -/
inductive CancelPc where
  | outside
  | loop
  | swap (running : Int)
deriving DecidableEq, Repr

/-- The shared word, the open calls of `interpret`, and where each thread is. The holders of the
token are numbered. -/
structure System where
  runningStatus : Int
  depth : Nat
  interpret : InterpretPc
  cancel : Nat → CancelPc

/-- No call is open and nobody cancels. -/
def System.idle : System := ⟨0, 0, .running, fun _ => .outside⟩

/-- Who moves. `call` and `leave` begin the loops of `interpret`; `bail` is a `return` from inside
its body, which skips the second loop. -/
inductive Action where
  | call
  | leave
  | bail
  | interpret
  | callCancel (holder : Nat)
  | cancel (holder : Nat)
deriving DecidableEq, Repr

namespace System

def setCancel (s : System) (holder : Nat) (pc : CancelPc) : System :=
  { s with cancel := fun i => if i = holder then pc else s.cancel i }

/-- One access of the interpreter to the word: a turn of the first loop of `interpret` opens a
call, or refuses it where the run is cancelled; a turn of the last loop closes the call. -/
def stepInterpret (s : System) : Option System :=
  match s.interpret with
  | .running => none
  | .entry =>
    if 0 ≤ s.runningStatus then some { s with interpret := .entrySwap s.runningStatus }
    else some { s with interpret := .running }
  | .entrySwap runningStatus =>
    match compareExchange s.runningStatus runningStatus (runningStatus + 1) with
    | (word, true) =>
      some { s with runningStatus := word, depth := s.depth + 1, interpret := .running }
    | (word, false) => some { s with runningStatus := word, interpret := .entry }
  | .exit =>
    if s.runningStatus = 0 then some { s with depth := s.depth - 1, interpret := .running }
    else some { s with interpret := .exitSwap s.runningStatus }
  | .exitSwap runningStatus =>
    let new := if runningStatus < 0 then runningStatus + 1 else runningStatus - 1
    match compareExchange s.runningStatus runningStatus new with
    | (word, true) =>
      some { s with runningStatus := word, depth := s.depth - 1, interpret := .running }
    | (word, false) => some { s with runningStatus := word, interpret := .exit }

/-- One access of `NockCancelToken::cancel` to the word. -/
def stepCancel (s : System) (holder : Nat) : Option System :=
  match s.cancel holder with
  | .outside => none
  | .loop =>
    if s.runningStatus ≤ 0 then some (s.setCancel holder .outside)
    else some (s.setCancel holder (.swap s.runningStatus))
  | .swap running =>
    match compareExchange s.runningStatus running (-running) with
    | (word, true) => some ({ s with runningStatus := word }.setCancel holder .outside)
    | (word, false) => some ({ s with runningStatus := word }.setCancel holder .loop)

/-- A step of the system, `none` where the thread cannot make it. -/
def step (s : System) : Action → Option System
  | .call => if s.interpret = .running then some { s with interpret := .entry } else none
  | .leave =>
    if s.interpret = .running ∧ 0 < s.depth then some { s with interpret := .exit } else none
  | .bail =>
    if s.interpret = .running ∧ 0 < s.depth then some { s with depth := s.depth - 1 } else none
  | .interpret => s.stepInterpret
  | .callCancel holder =>
    if s.cancel holder = .outside then some (s.setCancel holder .loop) else none
  | .cancel holder => s.stepCancel holder

/-- The system runs along a schedule. -/
def run (s : System) (schedule : List Action) : Option System := schedule.foldlM step s

end System

end Nockchain.Vm.Cancel
