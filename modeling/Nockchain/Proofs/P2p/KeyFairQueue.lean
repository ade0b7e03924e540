import Nockchain.P2p.KeyFairQueue

/-!
# `Nockchain.Proofs.P2p.KeyFairQueue`: nothing but superseded values is lost

The map has a key exactly if one sender, the channel or the receiver has it, and has it
once (`Fits`). So the receiver always finds the value, and a drained queue owes nothing
(`Fits.due_of_drained`). Every state can be drained without a further insertion
(`Fits.exists_drained`), so no sender and no key waits for ever.
-/

set_option autoImplicit false

namespace Nockchain.P2p

open List

variable {K V : Type} [DecidableEq K]

/-- The last value inserted for the key since its previous delivery. -/
def due (k : K) : List (QueueEvent K V) → Option V
  | [] => none
  | .inserted key value :: log => if k = key then some value else due k log
  | .delivered key _ :: log => if k = key then none else due k log

/-- Every delivery was of the value that was due, and so the only one of it. -/
def DeliversDue : List (QueueEvent K V) → Prop
  | [] => True
  | .inserted _ _ :: log => DeliversDue log
  | .delivered key value :: log => due key log = some value ∧ DeliversDue log

/-- The pair that a step of the schedule inserts. -/
def QueueStep.insertion : QueueStep K V → Option (K × V)
  | .insert key value => some (key, value)
  | _ => none

/-- The pair whose insertion the event is. -/
def QueueEvent.insertion : QueueEvent K V → Option (K × V)
  | .inserted key value => some (key, value)
  | .delivered _ _ => none

namespace KeyFairQueue

/-- The keys that are on their way. -/
def keys (q : KeyFairQueue K V) : List K := q.pending ++ q.channel ++ q.hand.toList

/-- All sends are complete and the receiver has taken everything. -/
def Drained (q : KeyFairQueue K V) : Prop := q.pending = [] ∧ q.channel = [] ∧ q.hand = none

structure Fits (q : KeyFairQueue K V) (log : List (QueueEvent K V)) : Prop where
  enqueued : ∀ k, q.enqueued k = due k log
  once : ∀ k, q.keys.count k = if (q.enqueued k).isSome then 1 else 0
  delivers : DeliversDue log

variable {q q' : KeyFairQueue K V} {log log' : List (QueueEvent K V)} {σ : List (QueueStep K V)}

/-- Keys only move on. -/
theorem Fits.move (h : q.Fits log) (hkeys : ∀ k, q'.keys.count k = q.keys.count k)
    (henq : q'.enqueued = q.enqueued) : q'.Fits log where
  enqueued k := by rw [henq, h.enqueued]
  once k := by rw [hkeys, henq, h.once]
  delivers := h.delivers

/-- The map has the key that the receiver holds. -/
theorem Fits.exists_value (h : q.Fits log) {key : K} (hhand : q.hand = some key) :
    ∃ value, q.enqueued key = some value := by
  rw [← Option.isSome_iff_exists]
  by_contra hnone
  have hcount := h.once key
  simp [keys, hhand, hnone] at hcount

/-- Every step of the queue is defined and keeps it in line with the log. -/
theorem Fits.step (h : q.Fits log) (e : QueueStep K V) :
    ∃ q' out, q.step e = some (q', out) ∧ q'.Fits (observed e out ++ log) := by
  have hset : ∀ key value k, Function.update q.enqueued key value k
      = if k = key then value else due k log := by
    intro key value k
    rw [Function.update_apply, h.enqueued]
  fun_cases q.step e
  -- An insertion: a key that waits already keeps its place and gets the new value.
  case case1 key value _ hkey | case2 key value _ old hkey =>
    refine ⟨_, _, rfl, hset key (some value), fun k => ?_, h.delivers⟩
    have hcount := h.once k
    by_cases hk : k = key
    · simp_all +zetaDelta [keys]
    · simpa +zetaDelta [keys, hk, Ne.symm hk] using hcount
  -- The moves of a key only shift it from one place to another.
  case case3 i key hi =>
    refine ⟨_, _, rfl, h.move (fun k => ?_) rfl⟩
    obtain ⟨hlt, rfl⟩ := List.getElem?_eq_some_iff.1 hi
    have hcount := (getElem_cons_eraseIdx_perm hlt).count_eq k
    simp only [keys, count_append, count_cons, count_nil] at hcount ⊢
    omega
  case case5 key channel hhand hchannel =>
    refine ⟨_, _, rfl, h.move (fun k => ?_) rfl⟩
    simp only [keys, hhand, hchannel, count_append, count_cons, Option.toList]
    omega
  case case8 key hhand =>
    obtain ⟨value, hvalue⟩ := h.exists_value hhand
    rw [hvalue]
    refine ⟨_, _, rfl, hset key none, fun k => ?_, (h.enqueued key).symm.trans hvalue, h.delivers⟩
    have hcount := h.once k
    by_cases hk : k = key
    · simp_all [keys]
      omega
    · simpa [keys, hhand, hk, Ne.symm hk] using hcount
  all_goals exact ⟨q, none, rfl, h⟩

/-- No schedule makes the receiver panic. -/
theorem Fits.run (h : q.Fits log) (σ : List (QueueStep K V)) :
    ∃ q' log', q.run log σ = some (q', log') ∧ q'.Fits log' := by
  induction σ generalizing q log with
  | nil => exact ⟨q, log, rfl, h⟩
  | cons e σ ih =>
    obtain ⟨q₁, out, hstep, h₁⟩ := h.step e
    obtain ⟨q₂, log₂, hrest, h₂⟩ := ih h₁
    refine ⟨q₂, log₂, ?_, h₂⟩
    rw [KeyFairQueue.run, hstep]
    exact hrest

omit [DecidableEq K] in
theorem insertion_observed (e : QueueStep K V) (out : Option (K × V)) :
    (observed e out).reverse.filterMap QueueEvent.insertion = [e].filterMap QueueStep.insertion := by
  rcases e with ⟨key, value⟩ | i | _ | _ <;> cases out <;> rfl

/-- The log has the insertions of the schedule, in its order, and no others. -/
theorem insertion_run (h : q.run log σ = some (q', log')) :
    log'.reverse.filterMap QueueEvent.insertion
      = log.reverse.filterMap QueueEvent.insertion ++ σ.filterMap QueueStep.insertion := by
  induction σ generalizing q log with
  | nil =>
    cases h
    simp
  | cons e σ ih =>
    obtain ⟨⟨q₁, out⟩, -, hrest⟩ := Option.bind_eq_some_iff.1 h
    rw [ih hrest, reverse_append, filterMap_append, insertion_observed, append_assoc,
      ← filterMap_append, singleton_append]

theorem Fits.due_of_drained (h : q.Fits log) (hq : q.Drained) (k : K) : due k log = none := by
  obtain ⟨hpending, hchannel, hhand⟩ := hq
  have honce := h.once k
  rw [← h.enqueued]
  cases hk : q.enqueued k <;> simp_all [keys]

/-- The steps that a key still has to take: it is sent, received and removed. -/
def remaining (q : KeyFairQueue K V) : Nat :=
  3 * q.pending.length + 2 * q.channel.length + q.hand.toList.length

/-- While the queue is not drained, some step other than an insertion moves a key on. -/
theorem Fits.exists_progress (h : q.Fits log) (hq : ¬ q.Drained) :
    ∃ e q' out, e.insertion = none ∧ q.step e = some (q', out) ∧ q'.remaining < q.remaining := by
  cases hhand : q.hand with
  | some key =>
    obtain ⟨value, hvalue⟩ := h.exists_value hhand
    have hstep : q.step .remove = some ({ q with
        enqueued := Function.update q.enqueued key none, hand := none }, some (key, value)) := by
      simp [KeyFairQueue.step, hhand, hvalue]
    exact ⟨.remove, _, _, rfl, hstep, by simp [remaining, hhand]⟩
  | none =>
    cases hchannel : q.channel with
    | cons key channel =>
      have hstep : q.step .recv = some ({ q with channel := channel, hand := some key }, none) := by
        simp [KeyFairQueue.step, hhand, hchannel]
      refine ⟨.recv, _, _, rfl, hstep, ?_⟩
      simp only [remaining, hhand, hchannel, length_cons, Option.toList, length_nil]
      omega
    | nil =>
      cases hpending : q.pending with
      | nil => exact absurd ⟨hpending, hchannel, hhand⟩ hq
      | cons key pending =>
        have hstep : q.step (.send 0)
            = some ({ q with pending := pending, channel := [key] }, none) := by
          simp [KeyFairQueue.step, hpending, hchannel]
        refine ⟨.send 0, _, _, rfl, hstep, ?_⟩
        simp only [remaining, hhand, hchannel, hpending, length_cons, length_nil]
        omega

theorem Fits.exists_drained (h : q.Fits log) :
    ∃ σ q' log', (∀ e ∈ σ, e.insertion = none) ∧ q.run log σ = some (q', log') ∧ q'.Drained := by
  induction hn : q.remaining using Nat.strong_induction_on generalizing q log with
  | _ n ih =>
    by_cases hq : q.Drained
    · exact ⟨[], q, log, by simp, rfl, hq⟩
    · obtain ⟨e, q₁, out, he, hstep, hlt⟩ := h.exists_progress hq
      obtain ⟨_, _, hstep', h₁⟩ := h.step e
      obtain ⟨rfl, rfl⟩ := Prod.mk.inj (Option.some.inj (hstep.symm.trans hstep'))
      obtain ⟨σ, q', log', hσ, hrest, hq'⟩ := ih _ (hn ▸ hlt) h₁ rfl
      refine ⟨e :: σ, q', log', by simpa [he] using hσ, ?_, hq'⟩
      rw [KeyFairQueue.run, hstep]
      exact hrest

/-- In every interleaving `recv` finds its value, a key is in the channel at most once, and the
deliveries are of the values that are due by the insertions of the schedule. When the queue is
drained nothing is due, and it can be drained from every state by sends and receipts alone. -/
theorem run_delivers (σ : List (QueueStep K V)) :
    ∃ (q : KeyFairQueue K V) (log : List (QueueEvent K V)), run {} [] σ = some (q, log) ∧
      q.channel.Nodup ∧
      log.reverse.filterMap QueueEvent.insertion = σ.filterMap QueueStep.insertion ∧
      DeliversDue log ∧ (q.Drained → ∀ k, due k log = none) ∧
      ∃ τ q' log', (∀ e ∈ τ, e.insertion = none) ∧ q.run log τ = some (q', log') ∧ q'.Drained := by
  have hinit : Fits ({} : KeyFairQueue K V) [] := ⟨fun _ => rfl, fun _ => rfl, trivial⟩
  obtain ⟨q, log, hq, h⟩ := hinit.run σ
  refine ⟨q, log, hq, nodup_iff_count_le_one.2 fun k => ?_, by simpa using insertion_run hq,
    h.delivers, h.due_of_drained, h.exists_drained⟩
  have hcount : q.keys.count k ≤ 1 := by
    rw [h.once]
    split <;> omega
  rw [keys, count_append, count_append] at hcount
  omega

end KeyFairQueue

end Nockchain.P2p
