import Mathlib

/-!
# `Nockchain.P2p.KeyFairQueue`: one place in the queue for each key

A sender puts its value in the map and sends the key only if the key was not there. The
receiver takes a key from the channel and then removes its value. Between the two halves
any other sender may run. The receiver is alive, so `send` cannot fail.
-/

set_option autoImplicit false

namespace Nockchain.P2p

/-- The map, the senders that have inserted a new key, the channel, and the key that the receiver
has taken from it. -/
structure KeyFairQueue (K V : Type) where
  enqueued : K → Option V := fun _ => none
  pending : List K := []
  channel : List K := []
  hand : Option K := none

/-- The atomic steps; a pending sender is given by its place. -/
inductive QueueStep (K V : Type) where
  | insert (key : K) (value : V)
  | send (i : Nat)
  | recv
  | remove

/-- What can be seen from outside: a sender's value goes in, or `recv` returns one. -/
inductive QueueEvent (K V : Type) where
  | inserted (key : K) (value : V)
  | delivered (key : K) (value : V)

namespace KeyFairQueue

variable {K V : Type} [DecidableEq K]

/-- One step, and what `recv` returns in it; `none` is a panic. A step that has to wait changes
nothing. -/
def step (q : KeyFairQueue K V) : QueueStep K V → Option (KeyFairQueue K V × Option (K × V))
  | .insert key value =>
    let q' := { q with enqueued := Function.update q.enqueued key (some value) }
    match q.enqueued key with
    | none => some ({ q' with pending := key :: q.pending }, none)
    | some _ => some (q', none)
  | .send i =>
    match q.pending[i]? with
    | some key =>
      some ({ q with pending := q.pending.eraseIdx i, channel := q.channel ++ [key] }, none)
    | none => some (q, none)
  | .recv =>
    match q.hand, q.channel with
    | none, key :: channel => some ({ q with channel := channel, hand := some key }, none)
    | _, _ => some (q, none)
  | .remove =>
    match q.hand with
    | none => some (q, none)
    | some key => do
      let value ← q.enqueued key
      let q' := { q with enqueued := Function.update q.enqueued key none, hand := none }
      return (q', some (key, value))

/-- The events of a step. An insertion is one by the schedule alone, whatever the queue does with
the value. -/
def observed : QueueStep K V → Option (K × V) → List (QueueEvent K V)
  | .insert key value, _ => [.inserted key value]
  | _, some (key, value) => [.delivered key value]
  | _, none => []

/-- The steps of a schedule, with the events so far, the latest first. -/
def run (q : KeyFairQueue K V) (log : List (QueueEvent K V)) :
    List (QueueStep K V) → Option (KeyFairQueue K V × List (QueueEvent K V))
  | [] => some (q, log)
  | e :: σ => do
    let (q', out) ← q.step e
    run q' (observed e out ++ log) σ

end KeyFairQueue

end Nockchain.P2p
