import Nockchain.Math.Schnorr

/-!
# `Nockchain.Math.Mary`: polynomials and marys as nouns

A polynomial is its length and an atom of its words, a mary its step, its length and such an atom.
`handle.rs` writes a one above the words, `convert.rs` reads them. `++fet` of `ztd/one.hoon` and its
jet tell the elements of a mary from other atoms.

Arithmetic that overflows panics, as in `Nockchain.Serialization.Cue`: the models are of a build
with overflow checks. The functions here answer `none` for a panic and for an error.
-/

set_option autoImplicit false

namespace Nockchain.Math

open Lib Mem.Hoon Schnorr

/-! ### Elements of a mary -/

/-- `++fet` of `mary-utils`. -/
def fet (step a : Nat) : Bool :=
  let v := ripCorrect 6 a
  (v.length = 1 && step = 1 || v.length = step + 1) && v.all based

/-- `rip_correct` of the jets, at bloq 6 and step 1: the words go before the list from the last one
on. -/
def ripCorrectJet (b : Nat) : List Nat :=
  if b = 0 then [0]
  else (List.range (met 6 b)).reverse.foldl
    (fun list i => cut b (i * 2 ^ 6) (2 ^ 6) :: list) []

/-- `fet_jet`: fails on a step that is not a word. In Rust `&&` binds more tightly than `||`, and
`step + 1` is computed only if the first case does not apply. -/
def fetJet (step a : Nat) : Option Bool := do
  guard (step < 2 ^ 64)
  let v := ripCorrectJet a
  if v.length = 1 && step = 1 then return true
  guard (step + 1 < 2 ^ 64)
  return v.length = step + 1 && v.all based

/-! ### Nouns -/

/-- `Mary`: `len` elements of `step` words. -/
structure Mary where
  step : Nat
  len : Nat
  dat : List Nat
deriving DecidableEq, Repr

/-- `new_handle_mut_slice` and `new_handle_mut_mary`, filled and normalized: the words below a
one. -/
def handle (dat : List Nat) : Noun := .atom (Nat.ofDigits (2 ^ 64) (dat ++ [1]))

/-- `to_noun` of a `Mary`. -/
def Mary.toNoun (mary : Mary) : Noun :=
  .cell (.atom mary.step) (.cell (.atom mary.len) (handle mary.dat))

end Nockchain.Math
