import Nockchain.Proofs.Wallet.Conservation

/-!
# `Nockchain.Proofs.Wallet.Funds`: when the funds are enough

The notes pay the orders one after the other, and then the fee. A note that would pay
only a part of the fee has no output, and is left out without its part being paid. So
once the orders are paid, one note has to be worth more than the whole rest of the fee:
`funded_iff` says for which notes the builder does not run out of funds. The orders and
the fee are first reduced to two numbers (`left`).
-/

set_option autoImplicit false

namespace Nockchain.Wallet

open Lib TxEngine.V1 List
open TxEngine hiding Nnote

/-! ### The numbers -/

/-- The gifts and the fee that are still to be paid after a note. -/
def left (x : Nat × Nat) (assets : Nat) : Nat × Nat :=
  if min assets x.1 = 0 ∧ assets - x.1 - x.2 = 0 then x else (x.1 - assets, x.2 - (assets - x.1))

/-- Once the gifts are paid, one note has to pay the fee. -/
theorem foldl_left_zero {l : List Nat} {fee : Nat} :
    l.foldl left (0, fee) = (0, 0) ↔ fee = 0 ∨ ∃ a ∈ l, fee < a := by
  induction l generalizing fee with
  | nil => simp
  | cons a l ih =>
    rw [foldl_cons, left]
    split
    case isTrue hskip =>
      have hle : a ≤ fee := by omega
      rw [ih]
      simp [hle.not_gt]
    case isFalse hpay =>
      have hlt : fee < a := by simp at hpay; omega
      have hrest : ((0, fee).1 - a, (0, fee).2 - (a - (0, fee).1)) = (0, 0) := by simp; omega
      rw [hrest, ih]
      simp [hlt]

/-- The gifts are paid with the note `a`, and then the rest of the fee by it or by another. -/
theorem foldl_left {l : List Nat} {gifts fee : Nat} (hpos : 0 < gifts) :
    l.foldl left (gifts, fee) = (0, 0) ↔ ∃ pre a post, l = pre ++ a :: post ∧ pre.sum < gifts ∧
      gifts ≤ pre.sum + a ∧
      (gifts + fee ≤ pre.sum + a ∨ ∃ b ∈ post, gifts + fee < pre.sum + a + b) := by
  induction l generalizing gifts with
  | nil => simp; omega
  | cons a l ih =>
    rw [foldl_cons]
    by_cases hlt : a < gifts
    · have hleft : left (gifts, fee) a = (gifts - a, fee) := by
        unfold left
        split
        · simp; omega
        · simp; omega
      rw [hleft, ih (by omega)]
      constructor
      · rintro ⟨pre, b, post, rfl, hpre, hpaid, hfee⟩
        refine ⟨a :: pre, b, post, rfl, ?_⟩
        rw [sum_cons]
        refine ⟨by omega, by omega, hfee.imp (fun h => by omega) fun ⟨c, hc, h⟩ => ⟨c, hc, by omega⟩⟩
      · rintro ⟨pre, b, post, hl, hpre, hpaid, hfee⟩
        cases pre with
        | nil =>
          cases hl
          simp at hpaid
          omega
        | cons a' pre =>
          cases hl
          rw [sum_cons] at hpre hpaid hfee
          exact ⟨pre, b, post, rfl, by omega, by omega,
            hfee.imp (fun h => by omega) fun ⟨c, hc, h⟩ => ⟨c, hc, by omega⟩⟩
    · have hleft : left (gifts, fee) a = (0, fee - (a - gifts)) := by
        unfold left
        split
        · simp; omega
        · simp; omega
      rw [hleft, foldl_left_zero]
      constructor
      · intro h
        refine ⟨[], a, l, rfl, hpos, ?_⟩
        exact ⟨by omega, h.imp (fun h => by omega) fun ⟨b, hb, h⟩ => ⟨b, hb, by omega⟩⟩
      rintro ⟨pre, b, post, hl, hpre, hpaid, hfee⟩
      cases pre with
      | nil =>
        cases hl
        simp only [sum_nil, Nat.zero_add] at hfee
        by_cases hzero : fee - (a - gifts) = 0
        · exact .inl hzero
        · exact .inr (hfee.elim (fun h => by omega) fun ⟨b, hb, h⟩ => ⟨b, hb, by omega⟩)
      | cons a' pre =>
        cases hl
        rw [sum_cons] at hpre
        omega

/-! ### One note -/

/-- Orders stay open only if nothing is left. -/
theorem allocateOrders_greedy (orders : List Order) (assets : Nat) :
    (allocateOrders orders assets).2.2 = 0 ∨ (allocateOrders orders assets).1 = [] := by
  refine foldlRecOn (b := ([], [], assets)) (motive := fun x => x.2.2 = 0 ∨ x.1 = []) orders
    allocateOrder (.inr rfl) ?_
  rintro ⟨next, out, rem⟩ hx ord -
  unfold allocateOrder
  dsimp only at hx ⊢
  split
  case isTrue hrem => exact .inl hrem
  case isFalse hrem =>
    have hnext := hx.resolve_left hrem
    split
    · exact .inl (by dsimp only; omega)
    · exact .inr hnext

section Builder

variable [Tip5] {orders : List Order} {lok : Lock} {includeData : Bool}
  {unlock : Nnote → Option (Seeds → Nat → Spend)} {notes : List Nnote}

/-- The gifts of some orders. -/
abbrev gifts (orders : List Order) : Nat := giftsTo (fun _ => true) orders

/-- Some lock of the orders cannot be hashed. -/
def unhashed (lok : Lock) : Bool := lok.hash.isNone

theorem giftsTo_eq_zero {q : Lock → Bool} (hpos : Positive orders) :
    giftsTo q orders = 0 ↔ ∀ ord ∈ orders, q ord.lock = false := by
  induction orders with
  | nil => simp
  | cons ord orders ih =>
    obtain ⟨hord, hpos⟩ := forall_mem_cons.1 hpos
    rw [giftsTo_cons, Nat.add_eq_zero_iff, ih hpos, forall_mem_cons, Order.giftTo]
    cases q ord.lock <;> simp; omega

theorem gifts_eq_zero (hpos : Positive orders) : gifts orders = 0 ↔ orders = [] := by
  rw [giftsTo_eq_zero hpos, eq_nil_iff_forall_not_mem]
  simp

/-- What a note leaves of the gifts and the fee, and when it has no output. -/
theorem allocateNote_spec (hpos : Positive orders) (hlok : ∃ p, lok = [.pkh p] ∧ p.h ≠ ∅)
    (assets fee : Nat) : ∃ pending specs,
      allocateNote lok assets fee orders = some (pending, specs, min fee (assets - gifts orders)) ∧
      gifts pending = gifts orders - assets ∧
      (specs = [] ↔ min assets (gifts orders) = 0 ∧ assets - gifts orders - fee = 0) := by
  have hallocates := allocates_allocateOrders hpos assets
  have hgreedy := allocateOrders_greedy orders assets
  unfold allocateNote
  generalize allocateOrders orders assets = x at hallocates hgreedy ⊢
  obtain ⟨next, out, rem⟩ := x
  obtain ⟨hparts, hsum, -, hspecs⟩ := hallocates
  have hall : gifts next + gifts out = gifts orders := hparts _
  have hsum : gifts out + rem = assets := hsum
  have hnil : gifts out = 0 ↔ out = [] := gifts_eq_zero hspecs
  dsimp only at hgreedy ⊢
  have hnext : rem = 0 ∨ gifts next = 0 := hgreedy.imp id fun h => by rw [h]; rfl
  have hrem : rem = assets - gifts orders := by omega
  subst hrem
  split_ifs with hrefund
  · refine ⟨next, out, rfl, by omega, ?_⟩
    rw [← hnil]
    omega
  obtain ⟨p, rfl, hp⟩ := hlok
  have htap : p.h.tap ≠ [] := fun h => hp (ZSet.eq_empty_iff.2 fun x hx => by
    rw [← ZSet.mem_tap, h] at hx
    cases hx)
  obtain ⟨ord, hord⟩ : ∃ ord, buildRefundOrder (assets - gifts orders
      - min fee (assets - gifts orders)) [.pkh p] = some ord := by
    cases h : p.h.tap with
    | nil => exact absurd h htap
    | cons recipient rest =>
      simp only [buildRefundOrder, orderFromLock, h]
      split <;> exact ⟨_, rfl⟩
  refine ⟨next, ord :: out, by rw [hord]; rfl, by omega, ?_⟩
  exact iff_of_false (cons_ne_nil _ _) fun h => hrefund (by omega)

/-- Outputs that can be hashed and pay what a note has become its seeds. -/
theorem exists_seedsFromSpecs {specs : List Order} {note : Nnote} {portion : Nat}
    (hroots : ∀ spec ∈ specs, unhashed spec.lock = false) (hnote : note.hash ≠ none)
    (hsum : gifts specs + portion = note.assets) (hne : specs ≠ []) :
    ∃ seeds, seedsFromSpecs includeData specs note portion = some seeds ∧ seeds ≠ ∅ := by
  obtain ⟨parent, hparent⟩ := Option.ne_none_iff_exists'.1 hnote
  obtain ⟨⟨l, total⟩, hl, -⟩ : ∃ x, seedList includeData specs note = some x ∧ _ :=
    Run.exists_foldlM (I := fun rest _ => ∀ spec ∈ rest, unhashed spec.lock = false)
      (fun spec rest x hrest => by
        obtain ⟨hspec, hrest⟩ := forall_mem_cons.1 hrest
        obtain ⟨root, hroot⟩ := Option.isSome_iff_exists.1 (Option.isNone_eq_false_iff.1 hspec)
        obtain ⟨seed, hseed⟩ : ∃ seed, seedFromSpec includeData note spec = some seed := by
          simp [seedFromSpec, hroot, hparent]
        exact ⟨(seed :: x.1, x.2 + spec.gift), by simp [hseed], hrest⟩) hroots
  obtain ⟨htotal, hseeds⟩ := seedList_eq_some hl
  refine ⟨ZSet.gas ∅ l, ?_, fun hempty => ?_⟩
  · have hassets : note.assets = total + portion := by rw [htotal]; exact hsum.symm
    simp only [seedsFromSpecs, hl, Option.bind_eq_bind, Option.bind_some, guard, if_pos hassets]
    rfl
  cases l with
  | nil =>
    rw [reverse_nil, map_nil, eq_comm, map_eq_nil_iff] at hseeds
    exact hne hseeds
  | cons seed l =>
    have hmem : seed ∈ ZSet.gas ∅ (seed :: l) := by simp
    rw [hempty] at hmem
    exact ZSet.not_mem_empty _ hmem

/-! ### All notes -/

/-- The notes can be spent, and the locks of the orders and of the refund can be hashed. -/
structure Usable (unlock : Nnote → Option (Seeds → Nat → Spend)) (notes : List Nnote)
    (orders : List Order) (lok : Lock) : Prop where
  unlock : ∀ note ∈ notes, unlock note ≠ none
  note : ∀ note ∈ notes, note.hash ≠ none
  orders : ∀ ord ∈ orders, unhashed ord.lock = false
  refund : (∃ p, lok = [.pkh p] ∧ p.h ≠ ∅) ∧ unhashed lok = false

/-- The loop returns, and leaves what the numbers say. -/
theorem exists_processSpends {state : SpendBuildState} (h : Usable unlock notes state.orders lok)
    (hpos : Positive state.orders) :
    ∃ final, processSpends includeData unlock lok notes state = some final ∧
      Positive final.orders ∧ (gifts final.orders, final.fee)
        = (notes.map Nnote.assets).foldl left (gifts state.orders, state.fee) := by
  induction notes generalizing state with
  | nil => exact ⟨state, rfl, hpos, rfl⟩
  | cons note notes ih =>
    obtain ⟨hopen, hopens⟩ := forall_mem_cons.1 h.unlock
    obtain ⟨hhash, hhashes⟩ := forall_mem_cons.1 h.note
    obtain ⟨spend, hspend⟩ := Option.ne_none_iff_exists'.1 hopen
    obtain ⟨pending, specs, hnote, hleft, hskip⟩ :=
      allocateNote_spec hpos h.refund.1 note.assets state.fee
    obtain ⟨refund, hpays⟩ :=
      pays_allocateNote (h.refund.1.imp fun _ hp => hp.1) hpos hnote
    simp only [processSpends, hspend, hnote, Option.bind_eq_bind, Option.bind_some,
      map_cons, foldl_cons]
    by_cases hnil : specs = []
    · rw [if_pos hnil, left, if_pos (hskip.1 hnil)]
      exact ih ⟨hopens, hhashes, h.orders, h.refund⟩ hpos
    have hparts := hpays.parts unhashed
    rw [(giftsTo_eq_zero hpos).2 h.orders, h.refund.2] at hparts
    obtain ⟨hpending, hspecs⟩ := Nat.add_eq_zero_iff.1 hparts
    obtain ⟨seeds, hseeds, hne⟩ : ∃ seeds, seedsFromSpecs includeData specs note _ = some seeds ∧
        seeds ≠ ∅ :=
      exists_seedsFromSpecs ((giftsTo_eq_zero hpays.specs).1 hspecs) hhash hpays.sum hnil
    rw [if_neg hnil, left, if_neg (mt hskip.2 hnil)]
    simp only [hseeds, Option.bind_some, guard, if_pos hne]
    have hfee : state.fee - min state.fee (note.assets - gifts state.orders)
        = state.fee - (note.assets - gifts state.orders) := by omega
    rw [hfee, ← hleft]
    exact @ih ⟨_, _, pending⟩
      ⟨hopens, hhashes, (giftsTo_eq_zero hpays.pending).1 hpending, h.refund⟩ hpays.pending

/-- With notes that can be spent and valid orders, enough funds are enough exactly if the note with
which the orders are paid, or a single note after it together with what that one leaves, pays the
whole fee. `create-spends-0` and `create-spends-1` differ in the way they open a note only. -/
theorem funded_iff {fee : Nat} (h : Usable unlock notes orders lok)
    (hvalid : (ordersValid orders).toBool = true) :
    (gifts orders + fee ≤ (notes.map Nnote.assets).sum →
        (createSpends includeData unlock notes orders fee lok).isSome = true) ↔
      (gifts orders + fee ≤ (notes.map Nnote.assets).sum →
        ∃ pre a post, notes.map Nnote.assets = pre ++ a :: post ∧ pre.sum < gifts orders ∧
          gifts orders ≤ pre.sum + a ∧ (gifts orders + fee ≤ pre.sum + a ∨
            ∃ b ∈ post, gifts orders + fee < pre.sum + a + b)) := by
  refine imp_congr_right fun _ => ?_
  have hpos := positive_of_ordersValid hvalid
  have hgifts : 0 < gifts orders := by
    refine Nat.pos_of_ne_zero fun hzero => ?_
    rw [gifts_eq_zero hpos] at hzero
    rw [hzero] at hvalid
    cases hvalid
  obtain ⟨final, hfinal, hpos', hnumbers⟩ : ∃ final,
      processSpends includeData unlock lok notes ⟨∅, fee, orders⟩ = some final ∧ _ :=
    exists_processSpends h hpos
  rw [← foldl_left hgifts, ← hnumbers, Prod.mk.injEq, gifts_eq_zero hpos']
  by_cases hdone : final.orders = [] ∧ final.fee = 0 <;>
    simp [createSpends, hfinal, guard, hdone]

end Builder

section Short

local instance shortTip5 : Tip5 := mixTip5

/-- A note of the one key, of some assets. -/
def shortNote (last assets : Nat) : Nnote := .v0
  { originPage := 1, timelock := none, name := ⟨.ofNat 1, .ofNat last⟩,
    sig := ⟨1, ZSet.put ∅ twiceKey⟩, source := ⟨.ofNat 3, false⟩, assets }

/-- Notes of eleven, an order of five and a fee of six: the note that pays the order leaves nothing,
and none of the others pays the fee alone. -/
theorem not_funded_short :
    gifts [.pkh (.ofNat 4) 5] + 6 ≤ ([shortNote 1 5, shortNote 2 3, shortNote 3 3].map
      Nnote.assets).sum ∧
    createSpends0 false [shortNote 1 5, shortNote 2 3, shortNote 3 3] [.pkh (.ofNat 4) 5] 6 twiceKey
      (simpleLock (.ofNat 7)) = none := by
  decide +kernel

theorem funded_two : (createSpends0 false [shortNote 1 5, shortNote 2 7] [.pkh (.ofNat 4) 5] 6
    twiceKey (simpleLock (.ofNat 7))).isSome = true := by
  have husable : Usable (unlock0 twiceKey) [shortNote 1 5, shortNote 2 7] [.pkh (.ofNat 4) 5]
      (simpleLock (.ofNat 7)) := by
    refine ⟨?_, ?_, ?_, ⟨_, rfl, ?_⟩, ?_⟩ <;> decide +kernel
  exact (funded_iff husable rfl).2 (fun _ => ⟨[], 5, [7], by decide +kernel⟩) (by decide +kernel)

end Short

end Nockchain.Wallet
