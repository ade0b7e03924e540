import Nockchain.Noun
import Nockchain.Lib.Recursion

/-!
# `Nockchain.Vm.Rules`: the Nock reduction rules

The reference semantics: what `*[subject formula]` reduces to. `fas` and
`hax` are the rules for `/` (tree address) and `#` (tree edit), each by
recursion on the axis, and `rules` is the right-hand side of `*` for each
formula shape, as an unfolding in the sense of `Lib.Recursion`: evaluating an
operand is a call, and a crash is a failure. `Reduces` is the big-step
relation this generates.

The shapes a formula may have, and the order in which its operands are
evaluated, are those of `++mink` in `hoon-138.hoon`, the repository's own
statement of the rules, but for a Nock 10 at axis `0`: `++mink` refuses it before
it evaluates the operands, the rules crash after them, as `#` has it. Opcode 12 is
evaluated as `++mink` does when no scry handler is installed: both operands, then a
crash.

A crash carries its reason. The rules do not distinguish crashes, so
`Reduces s f none` says that the reduction crashes at all; the reason
`Crash.edit` marks those that happen in `#`.
-/

set_option autoImplicit false

namespace Nockchain.Vm

open Nockchain.Lib

/-! ### Tree address and tree edit -/

/-- The head of a cell. -/
def headOf : Noun → Option Noun
  | .cell h _ => some h
  | .atom _ => none

/-- The tail of a cell. -/
def tailOf : Noun → Option Noun
  | .cell _ t => some t
  | .atom _ => none

/-- `/[axis n]`:

* `/[1 a] = a`
* `/[(a + a) b] = /[2 /[a b]]`
* `/[(a + a + 1) b] = /[3 /[a b]]`
-/
def fas (axis : Nat) (n : Noun) : Option Noun :=
  if axis = 0 then none
  else if axis = 1 then some n
  else if axis % 2 = 0 then (fas (axis / 2) n).bind headOf
  else (fas (axis / 2) n).bind tailOf
termination_by axis
decreasing_by all_goals omega

/-- `#[axis patch tree]`:

* `#[1 a b] = a`
* `#[(a + a) b c] = #[a [b /[(a + a + 1) c]] c]`
* `#[(a + a + 1) b c] = #[a [/[(a + a) c] b] c]`
-/
def hax (axis : Nat) (patch tree : Noun) : Option Noun :=
  if axis = 0 then none
  else if axis = 1 then some patch
  else if axis % 2 = 0 then
    (fas (axis + 1) tree).bind fun sibling => hax (axis / 2) (.cell patch sibling) tree
  else
    (fas (axis - 1) tree).bind fun sibling => hax (axis / 2) (.cell sibling patch) tree
termination_by axis
decreasing_by all_goals omega

@[simp] theorem hax_zero (patch tree : Noun) : hax 0 patch tree = none := by
  rw [hax, if_pos rfl]

/-! ### Formula shapes -/

/-- The shapes of a formula, one for each rule of `*`. -/
inductive Formula where
  | cons (head tail : Noun)
  | slot (axis : Nat)
  | const (noun : Noun)
  | nock (subject formula : Noun)
  | isCell (child : Noun)
  | inc (child : Noun)
  | eq (left right : Noun)
  | cond (test zero once : Noun)
  | comp (subject formula : Noun)
  | pin (pin formula : Noun)
  | arm (axis : Nat) (core : Noun)
  | edit (axis : Nat) (patch tree : Noun)
  | hint (tag : Nat) (body : Noun)
  | clue (tag : Nat) (clue body : Noun)
  | scry (reff path : Noun)
deriving DecidableEq, Repr

/-- The rule whose left-hand side a formula matches, if any. -/
def Formula.of : Noun → Option Formula
  | .cell (.cell h₁ h₂) t => some (.cons (.cell h₁ h₂) t)
  | .cell (.atom 0) (.atom axis) => some (.slot axis)
  | .cell (.atom 1) n => some (.const n)
  | .cell (.atom 2) (.cell b c) => some (.nock b c)
  | .cell (.atom 3) b => some (.isCell b)
  | .cell (.atom 4) b => some (.inc b)
  | .cell (.atom 5) (.cell b c) => some (.eq b c)
  | .cell (.atom 6) (.cell b (.cell c d)) => some (.cond b c d)
  | .cell (.atom 7) (.cell b c) => some (.comp b c)
  | .cell (.atom 8) (.cell b c) => some (.pin b c)
  | .cell (.atom 9) (.cell (.atom axis) c) => some (.arm axis c)
  | .cell (.atom 10) (.cell (.cell (.atom axis) c) d) => some (.edit axis c d)
  | .cell (.atom 11) (.cell (.atom tag) d) => some (.hint tag d)
  | .cell (.atom 11) (.cell (.cell (.atom tag) c) d) => some (.clue tag c d)
  | .cell (.atom 12) (.cell b c) => some (.scry b c)
  | _ => none

/-! ### The rules -/

/-- Why a reduction crashes: in `#`, or anywhere else. -/
inductive Crash where
  | exit
  | edit
deriving DecidableEq, Repr

/-- An unfolding of `*`: calls are at `(subject, formula)`. -/
abbrev Nock : Type := Prog (Noun × Noun) Noun Crash

/-- The right-hand side of `*[s φ]`. -/
def Formula.rule (s : Noun) : Formula → Nock
  | .cons b c => .call (s, b) fun x => .call (s, c) fun y => .pure (.cell x y)
  | .slot axis => .ofOption .exit (fas axis s)
  | .const n => .pure n
  | .nock b c => .call (s, b) fun x => .call (s, c) fun y => .call (x, y) .pure
  | .isCell b => .call (s, b) fun x => .pure (.atom (if x.isCell then 0 else 1))
  | .inc b => .call (s, b) fun
      | .atom a => .pure (.atom (a + 1))
      | .cell _ _ => .fail .exit
  | .eq b c => .call (s, b) fun x => .call (s, c) fun y =>
    .pure (.atom (if x = y then 0 else 1))
  | .cond b c d => .call (s, b) fun
      | .atom 0 => .call (s, c) .pure
      | .atom 1 => .call (s, d) .pure
      | _ => .fail .exit
  | .comp b c => .call (s, b) fun x => .call (x, c) .pure
  | .pin b c => .call (s, b) fun x => .call (.cell x s, c) .pure
  | .arm axis c => .call (s, c) fun core =>
    match fas axis core with
    | some f => .call (core, f) .pure
    | none => .fail .exit
  | .edit axis c d => .call (s, d) fun tree => .call (s, c) fun patch =>
    .ofOption .edit (hax axis patch tree)
  | .hint _ d => .call (s, d) .pure
  | .clue _ c d => .call (s, c) fun _ => .call (s, d) .pure
  | .scry b c => .call (s, b) fun _ => .call (s, c) fun _ => .fail .exit

/-- The right-hand side of `*[s f]`; a formula that matches no rule crashes. -/
def rules : Noun × Noun → Nock
  | (s, f) =>
    match Formula.of f with
    | some φ => φ.rule s
    | none => .fail .exit

/-- `*[s f]` reduces to a noun, or crashes for a reason. -/
def ReducesTo (s f : Noun) (o : Except Crash Noun) : Prop :=
  Evals rules (rules (s, f)) o

/-- The recursive reduction: `Reduces s f (some r)` when `*[s f]` is `r`,
`Reduces s f none` when it crashes. A reduction that goes on forever has
neither. -/
def Reduces (s f : Noun) : Option Noun → Prop
  | some r => ReducesTo s f (.ok r)
  | none => ∃ c, ReducesTo s f (.error c)

/-- The reduction of `*[s f]` crashes in the `#` of a Nock 10: an edit whose
axis is `0` or runs through an atom of the tree. -/
def CrashesInEdit (s f : Noun) : Prop := ReducesTo s f (.error .edit)

/-- The tag of a hint formula. -/
def Formula.hintTag : Formula → Option Nat
  | .hint tag _ => some tag
  | .clue tag _ _ => some tag
  | _ => none

/-- If the formula of a call is a hint, its tag satisfies `noop`. -/
def HintIs (noop : Nat → Prop) (i : Noun × Noun) : Prop :=
  ∀ φ tag, Formula.of i.2 = some φ → φ.hintTag = some tag → noop tag

/-- Every hint that the reduction of `*[s f]` evaluates has a tag that
satisfies `noop`. -/
def OnlyHints (noop : Nat → Prop) (s f : Noun) : Prop :=
  ∀ i, Reaches rules (s, f) i → HintIs noop i

end Nockchain.Vm
