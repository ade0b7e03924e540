import Nockchain.Proofs.HashTable
import Nockchain.Proofs.TxEngine.Conservation
import Nockchain.Wallet.TxBuilder

/-!
# `Nockchain.Proofs.Wallet.Conservation`: what the wallet pays

The builder allocates the assets of each note without loss: the gifts of its
outputs and its part of the fee are the assets of the note, and over all notes
the orders, the fee and the refund are paid in full. The outputs of a note then
become a set of seeds, in which equal outputs count once. So the spends conserve
the value exactly if no note has two equal outputs (`conserves_iff`); two orders
of one amount to one recipient lose one of them (`not_conserves_twice`).
-/

set_option autoImplicit false

namespace Nockchain.Wallet

open Lib TxEngine.V1 List
open TxEngine hiding Nnote

section Builder

variable [Tip5]

/-! ### Orders -/

namespace Order

omit [Tip5] in
@[simp] theorem gift_withGift (ord : Order) (gift : Nat) : (ord.withGift gift).gift = gift := by
  cases ord with
  | pkh | multisig => rfl

@[simp] theorem lock_withGift (ord : Order) (gift : Nat) : (ord.withGift gift).lock = ord.lock := by
  cases ord with
  | pkh | multisig => rfl

/-- The gift of an order to one of some locks. -/
def giftTo (q : Lock → Bool) (ord : Order) : Nat := if q ord.lock then ord.gift else 0

theorem giftTo_true (ord : Order) : ord.giftTo (fun _ => true) = ord.gift := rfl

/-- What an order pays in two parts. -/
theorem giftTo_withGift_add (q : Lock → Bool) (ord : Order) {m n : Nat} (h : m + n = ord.gift) :
    (ord.withGift m).giftTo q + (ord.withGift n).giftTo q = ord.giftTo q := by
  simp only [giftTo, lock_withGift, gift_withGift]
  split
  · exact h
  · rfl

/-- A valid order is for something. -/
theorem gift_pos_of_valid {ord : Order} (h : ord.valid = .ok ()) : 0 < ord.gift := by
  refine Nat.pos_of_ne_zero fun hzero => ?_
  cases ord with
  | pkh recipient gift =>
    have hgift : gift = 0 := hzero
    simp [valid, hgift] at h
  | multisig threshold participants gift =>
    have hgift : gift = 0 := hzero
    simp only [valid, hgift, if_true] at h
    repeat' split at h
    all_goals cases h

end Order

/-- The gifts of some orders to some locks. -/
def giftsTo (q : Lock → Bool) (orders : List Order) : Nat := (orders.map (Order.giftTo q)).sum

@[simp] theorem giftsTo_nil (q : Lock → Bool) : giftsTo q [] = 0 := rfl

@[simp] theorem giftsTo_cons (q : Lock → Bool) (ord : Order) (orders : List Order) :
    giftsTo q (ord :: orders) = ord.giftTo q + giftsTo q orders := rfl

/-- Every order is for something. -/
def Positive (orders : List Order) : Prop := ∀ ord ∈ orders, 0 < ord.gift

/-! ### Allocation -/

/-- What the allocation keeps: each order is open, paid or both in part, and the paid ones are taken
from the assets. -/
structure Allocates (orders : List Order) (assets : Nat) (x : List Order × List Order × Nat) :
    Prop where
  parts : ∀ q, giftsTo q x.1 + giftsTo q x.2.1 = giftsTo q orders
  sum : giftsTo (fun _ => true) x.2.1 + x.2.2 = assets
  pending : Positive x.1
  specs : Positive x.2.1

variable {orders : List Order}

/-- One more order: paid in full, paid in part, or left open. -/
theorem Allocates.step {assets : Nat} {x : List Order × List Order × Nat}
    {ord : Order} (h : Allocates orders assets x) (hpos : 0 < ord.gift) :
    Allocates (orders ++ [ord]) assets (allocateOrder x ord) := by
  obtain ⟨next, out, rem⟩ := x
  obtain ⟨hparts, hsum, hpending, hspecs⟩ := h
  have happend : ∀ q, giftsTo q (orders ++ [ord]) = giftsTo q orders + ord.giftTo q := by
    intro q
    simp [giftsTo]
  unfold allocateOrder
  dsimp only at hparts hsum hpending hspecs ⊢
  split
  · refine ⟨fun q => ?_, hsum, forall_mem_cons.2 ⟨hpos, hpending⟩, hspecs⟩
    have hq := hparts q
    show giftsTo q (ord :: next) + giftsTo q out = giftsTo q (orders ++ [ord])
    rw [giftsTo_cons, happend]
    omega
  case isFalse hrem =>
    have htake : 0 < min ord.gift rem := by omega
    have hspecs' : Positive (ord.withGift (min ord.gift rem) :: out) :=
      forall_mem_cons.2 ⟨by rw [Order.gift_withGift]; exact htake, hspecs⟩
    have hsum' : giftsTo (fun _ => true) (ord.withGift (min ord.gift rem) :: out)
        + (rem - min ord.gift rem) = assets := by
      rw [giftsTo_cons, Order.giftTo_true, Order.gift_withGift]
      omega
    split
    case isTrue hlt =>
      -- the order is paid in part, and the rest of it stays open
      refine ⟨fun q => ?_, hsum', forall_mem_cons.2 ⟨?_, hpending⟩, hspecs'⟩
      · have hq := hparts q
        have hsplit := ord.giftTo_withGift_add q
          (show ord.gift - min ord.gift rem + min ord.gift rem = ord.gift by omega)
        rw [giftsTo_cons, giftsTo_cons, happend]
        omega
      · rw [Order.gift_withGift]
        omega
    case isFalse hge =>
      refine ⟨fun q => ?_, hsum', hpending, hspecs'⟩
      have hq := hparts q
      have hsplit := ord.giftTo_withGift_add q (show 0 + min ord.gift rem = ord.gift by omega)
      have hzero : (ord.withGift 0).giftTo q = 0 := by
        simp [Order.giftTo]
      show giftsTo q next + giftsTo q (ord.withGift (min ord.gift rem) :: out) = _
      rw [giftsTo_cons, happend]
      omega

theorem allocates_allocateOrders (hpos : Positive orders) (assets : Nat) :
    Allocates orders assets (allocateOrders orders assets) := by
  have hfold : ∀ (done rest : List Order) (x : List Order × List Order × Nat), Positive rest →
      Allocates done assets x → Allocates (done ++ rest) assets (rest.foldl allocateOrder x) := by
    intro done rest
    induction rest generalizing done with
    | nil =>
      intro x _ hx
      rwa [append_nil]
    | cons ord rest ih =>
      intro x hrest hx
      obtain ⟨hord, hrest⟩ := forall_mem_cons.1 hrest
      have hstep := ih (done ++ [ord]) _ hrest (hx.step hord)
      rwa [append_assoc] at hstep
  have hstart : Allocates [] assets ([], [], assets) :=
    ⟨fun _ => rfl, Nat.zero_add _, forall_mem_nil _, forall_mem_nil _⟩
  exact hfold [] orders _ hpos hstart

/-- A lock of one primitive, for the signatures of some keys. -/
def Refundable (lok : Lock) : Prop := ∃ p, lok = [.pkh p]

variable {lok : Lock}

/-- The refund is an order to the refund lock. -/
theorem buildRefundOrder_eq_some {refund : Nat} {ord : Order} (hlok : Refundable lok)
    (h : buildRefundOrder refund lok = some ord) : ord.gift = refund ∧ ord.lock = lok := by
  obtain ⟨p, rfl⟩ := hlok
  simp only [buildRefundOrder, orderFromLock, bind_eq_some] at h
  obtain ⟨parsed, hparsed, rfl⟩ := h
  have hset : ZSet.gas ∅ p.h.tap = p.h := by
    ext x
    simp
  split at hparsed
  · cases hparsed
  case h_2 recipient rest htap =>
    rw [htap] at hset
    split_ifs at hparsed with hone
    · obtain ⟨hm, rfl⟩ := hone
      cases hparsed
      refine ⟨rfl, ?_⟩
      show ([.pkh ⟨1, ZSet.gas ∅ [recipient]⟩] : Lock) = [.pkh p]
      rw [hset, ← hm]
    cases hparsed
    refine ⟨rfl, ?_⟩
    show ([.pkh ⟨p.m, ZSet.gas ∅ (recipient :: rest)⟩] : Lock) = [.pkh p]
    rw [hset]

/-- What a note pays: the orders or parts of them, a part of the fee, and the refund. -/
structure Pays (lok : Lock) (assets fee : Nat) (orders pending specs : List Order)
    (feePortion refund : Nat) : Prop where
  parts : ∀ q, giftsTo q pending + giftsTo q specs = giftsTo q orders + if q lok then refund else 0
  sum : giftsTo (fun _ => true) specs + feePortion = assets
  fee : feePortion ≤ fee
  pending : Positive pending
  specs : Positive specs

/-- One note: the orders that it pays, its part of the fee and the refund add up to its assets. -/
theorem pays_allocateNote {assets fee feePortion : Nat}
    {orders pending specs : List Order} (hlok : Refundable lok) (hpos : Positive orders)
    (h : allocateNote lok assets fee orders = some (pending, specs, feePortion)) :
    ∃ refund, Pays lok assets fee orders pending specs feePortion refund := by
  have hallocates := allocates_allocateOrders hpos assets
  unfold allocateNote at h
  generalize allocateOrders orders assets = x at h hallocates
  obtain ⟨next, out, rem⟩ := x
  obtain ⟨hparts, hsum, hpending, hspecs⟩ := hallocates
  dsimp only at h hparts hsum hpending hspecs
  split_ifs at h with hrefund
  · cases h
    refine ⟨0, fun q => ?_, by omega, by omega, hpending, hspecs⟩
    rw [hparts q, ite_self, Nat.add_zero]
  obtain ⟨ord, hord, h⟩ := bind_eq_some.1 h
  cases h
  obtain ⟨hgift, hlock⟩ := buildRefundOrder_eq_some hlok hord
  refine ⟨rem - min fee rem, fun q => ?_, ?_, by omega, hpending,
    forall_mem_cons.2 ⟨by omega, hspecs⟩⟩
  · have hq := hparts q
    have hto : ord.giftTo q = if q lok then rem - min fee rem else 0 := by
      rw [Order.giftTo, hlock, hgift]
    rw [giftsTo_cons]
    omega
  · rw [giftsTo_cons, Order.giftTo_true]
    omega

/-! ### Seeds -/

variable {includeData : Bool} {note : Nnote} {specs : List Order} {seeds : List Seed}

/-- The seeds of the outputs, in the order of these. -/
theorem seedList_eq_some {gifts : Nat} (h : seedList includeData specs note = some (seeds, gifts)) :
    gifts = giftsTo (fun _ => true) specs ∧
      seeds.reverse.map some = specs.map (seedFromSpec includeData note) := by
  have hfold : ∀ (specs : List Order) (x : List Seed × Nat),
      specs.foldlM (fun x spec => do
        let seed ← seedFromSpec includeData note spec
        return (seed :: x.1, x.2 + spec.gift)) x = some (seeds, gifts) →
      gifts = x.2 + giftsTo (fun _ => true) specs ∧
        seeds.reverse.map some = x.1.reverse.map some ++ specs.map (seedFromSpec includeData note) := by
    intro specs
    induction specs with
    | nil =>
      intro x hx
      cases hx
      simp
    | cons spec specs ih =>
      intro x hx
      rw [foldlM_cons] at hx
      simp only [bind_eq_some, Option.pure_def] at hx
      obtain ⟨y, ⟨seed, hseed, hy⟩, hrest⟩ := hx
      cases hy
      obtain ⟨hgifts, hseeds⟩ := ih _ hrest
      rw [hseeds]
      refine ⟨?_, by simp [hseed]⟩
      rw [giftsTo_cons, Order.giftTo_true]
      omega
  simpa using hfold specs ([], 0) h

/-- The seed of an output has its lock and its gift. -/
theorem seedFromSpec_eq_some {spec : Order} {seed : Seed}
    (h : seedFromSpec includeData note spec = some seed) :
    spec.lock.hash = some seed.lockRoot ∧ seed.gift = spec.gift := by
  simp only [seedFromSpec, bind_eq_some, pure_eq_some] at h
  obtain ⟨root, hroot, parent, -, rfl⟩ := h
  exact ⟨hroot, rfl⟩

/-- The gift of a seed to a lock root. -/
def seedTo (root : Digest) (seed : Seed) : Nat := if seed.lockRoot = root then seed.gift else 0

/-- The locks of a root. -/
def hasRoot (root : Digest) (lok : Lock) : Bool := lok.hash = some root

/-- A weight of the seeds is that of the outputs. -/
theorem sum_seeds
    (h : seeds.reverse.map some = specs.map (seedFromSpec includeData note)) {f : Seed → Nat}
    {g : Order → Nat} (hfg : ∀ spec seed, seedFromSpec includeData note spec = some seed →
      f seed = g spec) : (seeds.map f).sum = (specs.map g).sum := by
  rw [← sum_reverse, ← map_reverse]
  generalize seeds.reverse = l at h
  induction specs generalizing l with
  | nil =>
    rw [map_nil, map_eq_nil_iff] at h
    rw [h]
    rfl
  | cons spec specs ih =>
    cases l with
    | nil => cases h
    | cons seed l =>
      rw [map_cons, map_cons, cons.injEq] at h
      rw [map_cons, sum_cons, map_cons, sum_cons, ih l h.2,
        hfg spec seed h.1.symm]

theorem sum_seedTo
    (h : seeds.reverse.map some = specs.map (seedFromSpec includeData note)) (root : Digest) :
    (seeds.map (seedTo root)).sum = giftsTo (hasRoot root) specs := by
  refine sum_seeds h fun spec seed hseed => ?_
  obtain ⟨hroot, hgift⟩ := seedFromSpec_eq_some hseed
  rw [seedTo, Order.giftTo, hasRoot, hroot, hgift]
  simp

theorem sum_gift (h : seeds.reverse.map some = specs.map (seedFromSpec includeData note)) :
    (seeds.map Seed.gift).sum = giftsTo (fun _ => true) specs :=
  sum_seeds h fun _ _ hseed => (seedFromSpec_eq_some hseed).2

/-! ### Spends -/

/-- A note that is spent, with its outputs and its part of the fee. -/
structure Allocation where
  note : Nnote
  specs : List Order
  fee : Nat

/-- How the fee and the orders are allocated to the notes, one after the other. A note that has
nothing to pay is left out. -/
def allocations (lok : Lock) : List Nnote → Nat → List Order → List Allocation
  | [], _, _ => []
  | note :: notes, fee, orders =>
    match allocateNote lok note.assets fee orders with
    | none => []
    | some (pending, specs, feePortion) =>
      if specs = [] then allocations lok notes fee orders
      else ⟨note, specs, feePortion⟩ :: allocations lok notes (fee - feePortion) pending

/-- No two outputs of a note are equal. -/
def Distinct (includeData : Bool) (allocs : List Allocation) : Prop :=
  ∀ a ∈ allocs, (a.specs.map (seedFromSpec includeData a.note)).Nodup

theorem sublist_allocations (lok : Lock) (notes : List Nnote) (fee : Nat) (orders : List Order) :
    ((allocations lok notes fee orders).map Allocation.note).Sublist notes := by
  induction notes generalizing fee orders with
  | nil => exact .slnil
  | cons note notes ih =>
    rw [allocations]
    split
    · exact nil_sublist _
    · split
      · exact (ih fee orders).cons note
      · exact (ih _ _).cons_cons note

/-- The spend of an allocation: the set of its seeds, and its fee. -/
structure Built (includeData : Bool) (a : Allocation) (sp : Spend) : Prop where
  seeds : ∃ seeds gifts, seedList includeData a.specs a.note = some (seeds, gifts) ∧
    a.note.assets = gifts + a.fee ∧ sp.seeds = ZSet.gas ∅ seeds
  fee : sp.fee = a.fee
  specs : Positive a.specs

/-- The wallet enters the seeds and the fee that it is given. -/
def Faithful (unlock : Nnote → Option (Seeds → Nat → Spend)) : Prop :=
  ∀ note spend, unlock note = some spend → ∀ seeds fee,
    (spend seeds fee).seeds = seeds ∧ (spend seeds fee).fee = fee

theorem faithful_unlock0 (pubkey : SchnorrPubkey) : Faithful (unlock0 pubkey) := by
  intro note spend h seeds fee
  cases note with
  | v0 note =>
    simp only [unlock0, Option.ite_none_right_eq_some, Option.some.injEq] at h
    rw [← h.2]
    exact ⟨rfl, rfl⟩
  | v1 note => cases h

theorem faithful_unlock1 (senderPkh : Digest) : Faithful (unlock1 senderPkh) := by
  intro note spend h seeds fee
  cases note with
  | v0 note => cases h
  | v1 note =>
    simp only [unlock1, bind_eq_some, pure_eq_some] at h
    obtain ⟨lok, -, root, -, rfl⟩ := h
    exact ⟨rfl, rfl⟩

/-- What the loop makes of the notes: a spend for each allocation, and all that is paid is taken
from the orders and the fee. -/
structure Spent (includeData : Bool) (lok : Lock) (notes : List Nnote)
    (state final : SpendBuildState) (entries : List (Nname × Spend)) (refund : Nat) : Prop where
  built : List.Forall₂ (fun a x => x.1 = a.note.name ∧ Built includeData a x.2)
    (allocations lok notes state.fee state.orders) entries
  spends : final.spends = state.spends.gas entries
  fee : state.fee
    = ((allocations lok notes state.fee state.orders).map Allocation.fee).sum + final.fee
  parts : ∀ q, ((allocations lok notes state.fee state.orders).map fun a => giftsTo q a.specs).sum
    + giftsTo q final.orders = giftsTo q state.orders + if q lok then refund else 0

/-- The loop over the notes, by induction on them: what one note pays is `pays_allocateNote`. -/
theorem spent_of_processSpends {unlock : Nnote → Option (Seeds → Nat → Spend)}
    (hunlock : Faithful unlock) (hlok : Refundable lok) {notes : List Nnote}
    {state final : SpendBuildState} (hpos : Positive state.orders)
    (h : processSpends includeData unlock lok notes state = some final) :
    ∃ entries refund, Spent includeData lok notes state final entries refund := by
  induction notes generalizing state with
  | nil =>
    cases h
    exact ⟨[], 0, .nil, rfl, by simp [allocations], fun q => by simp [allocations]⟩
  | cons note notes ih =>
    simp only [processSpends, bind_eq_some] at h
    obtain ⟨spend, hspend, ⟨pending, specs, feePortion⟩, hnote, h⟩ := h
    obtain ⟨refund, hpays⟩ := pays_allocateNote hlok hpos hnote
    have hallocations : allocations lok (note :: notes) state.fee state.orders
        = if specs = [] then allocations lok notes state.fee state.orders
          else ⟨note, specs, feePortion⟩ ::
            allocations lok notes (state.fee - feePortion) pending := by
      rw [allocations, hnote]
    split at h
    case isTrue hnil =>
      -- The note pays nothing: it is left out, and the orders and the fee stay as they are.
      obtain ⟨entries, refund, hspent⟩ := ih hpos h
      rw [if_pos hnil] at hallocations
      refine ⟨entries, refund, ?_, hspent.spends, ?_, fun q => ?_⟩
      · rw [hallocations]
        exact hspent.built
      · rw [hallocations]
        exact hspent.fee
      · rw [hallocations]
        exact hspent.parts q
    case isFalse hne =>
      simp only [bind_eq_some, Option.guard_eq_some'] at h
      obtain ⟨seeds, hseeds, -, -, h⟩ := h
      -- The note pays. The notes behind it go on with the orders and the fee that it leaves.
      have hrest := fun hpending => ih hpending h
      obtain ⟨rest, later, hspent⟩ := hrest hpays.pending
      rw [if_neg hne] at hallocations
      have hbuilt : Built includeData ⟨note, specs, feePortion⟩ (spend seeds feePortion) := by
        simp only [seedsFromSpecs, bind_eq_some, Option.guard_eq_some', pure_eq_some] at hseeds
        obtain ⟨⟨l, gifts⟩, hl, -, hassets, rfl⟩ := hseeds
        obtain ⟨hset, hfee⟩ := hunlock note spend hspend (ZSet.gas ∅ l) feePortion
        exact ⟨⟨l, gifts, hl, hassets, hset⟩, hfee, hpays.specs⟩
      refine ⟨(note.name, spend seeds feePortion) :: rest, refund + later, ?_, hspent.spends, ?_,
        fun q => ?_⟩
      · rw [hallocations]
        exact .cons ⟨rfl, hbuilt⟩ hspent.built
      · have hfee := hspent.fee
        have hle := hpays.fee
        rw [hallocations, map_cons, sum_cons]
        dsimp only at hfee ⊢
        omega
      · have hnow := hpays.parts q
        have hlater := hspent.parts q
        rw [hallocations, map_cons, sum_cons]
        dsimp only at hlater ⊢
        split_ifs at hnow with hq
        · rw [if_pos hq] at hlater ⊢
          omega
        · rw [if_neg hq] at hlater ⊢
          omega

/-! ### Conservation -/

/-- The spends of some notes conserve their value: each note is spent in full, by the rule of the
engine, the fees are the fee, and each lock gets what was ordered to it, the refund lock also what
is left of the assets. Locks are told apart by their roots. -/
structure Conserves (notes : List Nnote) (orders : List Order) (fee : Nat) (lok : Lock)
    (spends : Spends) : Prop where
  note : ∀ note ∈ notes, ∀ sp, spends.get note.name = some sp → sp.checkGiftsAndFee note = true
  spent : ∀ nam, spends.has nam = true → ∃ note ∈ notes, note.name = nam
  fees : spends.total Spend.fee = fee
  locks : ∃ refund,
    ((notes.filter fun note => spends.has note.name).map Nnote.assets).sum
      = giftsTo (fun _ => true) orders + fee + refund ∧
    ∀ root, spends.total (fun sp => sp.seeds.total (seedTo root))
      = giftsTo (hasRoot root) orders + if hasRoot root lok then refund else 0

/-- The seeds of an allocation without equal outputs are all in the set. -/
theorem Built.total {a : Allocation} {sp : Spend} (h : Built includeData a sp)
    (hdistinct : (a.specs.map (seedFromSpec includeData a.note)).Nodup) :
    sp.giftsAndFee = a.note.assets ∧ giftsTo (fun _ => true) a.specs + a.fee = a.note.assets ∧
      ∀ root, sp.seeds.total (seedTo root) = giftsTo (hasRoot root) a.specs := by
  obtain ⟨seeds, gifts, hlist, hassets, hset⟩ := h.seeds
  obtain ⟨hgifts, hseeds⟩ := seedList_eq_some hlist
  have hnodup : seeds.Nodup := by
    rw [← hseeds] at hdistinct
    exact nodup_reverse.1 hdistinct.of_map
  refine ⟨?_, by omega, fun root => ?_⟩
  · rw [Spend.giftsAndFee_eq, hset, h.fee, Seeds.gifts, ZSet.total_gas _ hnodup,
      sum_gift hseeds]
    omega
  · rw [hset, ZSet.total_gas _ hnodup, sum_seedTo hseeds root]

/-- Equal outputs leave a gap. -/
theorem Built.distinct {a : Allocation} {sp : Spend}
    (h : Built includeData a sp) (hgifts : sp.giftsAndFee = a.note.assets) :
    (a.specs.map (seedFromSpec includeData a.note)).Nodup := by
  obtain ⟨seeds, gifts, hlist, hassets, hset⟩ := h.seeds
  obtain ⟨hsum, hseeds⟩ := seedList_eq_some hlist
  rw [← hseeds]
  refine List.Nodup.map (Option.some_injective _) (nodup_reverse.2 ?_)
  by_contra hdup
  have hpos : ∀ seed ∈ seeds, 0 < seed.gift := by
    intro seed hseed
    have hmem : some seed ∈ a.specs.map (seedFromSpec includeData a.note) := by
      rw [← hseeds]
      exact mem_map_of_mem (mem_reverse.2 hseed)
    obtain ⟨spec, hspec, hfrom⟩ := mem_map.1 hmem
    rw [(seedFromSpec_eq_some hfrom).2]
    exact h.specs spec hspec
  have hlt := ZSet.total_gas_lt Seed.gift hpos hdup
  rw [Spend.giftsAndFee_eq, hset, h.fee, Seeds.gifts] at hgifts
  have hall := sum_gift hseeds
  omega

/-- The spends of notes with different names, entry by entry. -/
structure Entered (includeData : Bool) (notes : List Nnote) (allocs : List Allocation)
    (spends : Spends) (entries : List (Nname × Spend)) : Prop where
  built : List.Forall₂ (fun a x => x.1 = a.note.name ∧ Built includeData a x.2) allocs entries
  sublist : (allocs.map Allocation.note).Sublist notes
  names : (notes.map Nnote.name).Nodup
  tap : spends.tap.Perm entries

namespace Entered

variable {notes : List Nnote} {allocs : List Allocation} {spends : Spends}
  {entries : List (Nname × Spend)}

theorem of_gas
    (hbuilt : List.Forall₂ (fun a x => x.1 = a.note.name ∧ Built includeData a x.2) allocs entries)
    (hsublist : (allocs.map Allocation.note).Sublist notes)
    (hnames : (notes.map Nnote.name).Nodup) :
    Entered includeData notes allocs (ZMap.gas ∅ entries) entries := by
  refine ⟨hbuilt, hsublist, hnames, ?_⟩
  have hkeys : allocs.map (fun a => a.note.name) = entries.map Prod.fst :=
    map_eq_of_forall₂ hbuilt fun _ _ hx => hx.1.symm
  have hnodup : (entries.map Prod.fst).Nodup := by
    rw [← hkeys, ← Function.comp_def Nnote.name Allocation.note, ← map_map]
    exact hnames.sublist (hsublist.map Nnote.name)
  have hperm := ZMap.tap_gas_perm hnodup (s := ∅) fun x _ => ZMap.get_empty x.1
  rwa [ZMap.tap_eq_nil.2 rfl, append_nil] at hperm

variable (h : Entered includeData notes allocs spends entries)
include h

theorem exists_of_get {nam : Nname} {sp : Spend} (hget : spends.get nam = some sp) :
    ∃ a ∈ allocs, nam = a.note.name ∧ Built includeData a sp := by
  have hmem : (nam, sp) ∈ entries := h.tap.mem_iff.1 (ZMap.mem_tap.2 hget)
  exact exists_of_mem_forall₂ h.built hmem

variable {a : Allocation}

theorem exists_get (ha : a ∈ allocs) :
    ∃ sp, spends.get a.note.name = some sp ∧ Built includeData a sp := by
  obtain ⟨x, hx, hname, hbuilt⟩ := exists_of_mem_forall₂ h.built.flip ha
  exact ⟨x.2, hname ▸ ZMap.mem_tap.1 (h.tap.mem_iff.2 hx), hbuilt⟩

theorem note_mem (ha : a ∈ allocs) : a.note ∈ notes :=
  h.sublist.subset (mem_map_of_mem ha)

/-- A note is told by its name. -/
theorem note_eq (ha : a ∈ allocs) {note : Nnote} (hnote : note ∈ notes)
    (hname : note.name = a.note.name) : note = a.note :=
  inj_on_of_nodup_map h.names hnote (h.note_mem ha) hname

/-- A weight of the spends that is one of the allocations. -/
theorem total_eq {f : Spend → Nat} {g : Allocation → Nat}
    (hfg : ∀ a ∈ allocs, ∀ sp, Built includeData a sp → f sp = g a) :
    spends.total f = (allocs.map g).sum := by
  rw [ZMap.total_eq, (h.tap.map _).sum_eq]
  refine congrArg sum (map_eq_of_forall₂ (forall₂_mem h.built) ?_).symm
  intro a x hx
  exact (hfg a hx.2.1 x.2 hx.1.2).symm

/-- The notes that are spent are those of the allocations. -/
theorem spent_perm : (notes.filter fun note => spends.has note.name).Perm
    (allocs.map Allocation.note) := by
  have hnodup : notes.Nodup := h.names.of_map
  refine (perm_ext_iff_of_nodup (hnodup.filter _) (hnodup.sublist h.sublist)).2 fun note => ?_
  rw [mem_filter, ZMap.has_eq_true, mem_map]
  constructor
  · rintro ⟨hnote, sp, hget⟩
    obtain ⟨a, ha, hname, -⟩ := h.exists_of_get hget
    exact ⟨a, ha, (h.note_eq ha hnote hname).symm⟩
  · rintro ⟨a, ha, rfl⟩
    obtain ⟨sp, hget, -⟩ := h.exists_get ha
    exact ⟨h.note_mem ha, sp, hget⟩

/-- The spends conserve the value exactly if no note has two equal outputs. -/
theorem conserves_iff_distinct {lok : Lock} {orders : List Order} {fee refund : Nat}
    (hfee : fee = (allocs.map Allocation.fee).sum)
    (hparts : ∀ q, (allocs.map fun a => giftsTo q a.specs).sum
      = giftsTo q orders + if q lok then refund else 0) :
    Conserves notes orders fee lok spends ↔ Distinct includeData allocs := by
  constructor
  · intro hconserves a ha
    obtain ⟨sp, hget, hbuilt⟩ := h.exists_get ha
    have hcheck := hconserves.note a.note (h.note_mem ha) sp hget
    exact hbuilt.distinct (of_decide_eq_true hcheck)
  · intro hdistinct
    refine ⟨fun note hnote sp hget => ?_, fun nam hnam => ?_, ?_, refund, ?_, fun root => ?_⟩
    · obtain ⟨a, ha, hname, hbuilt⟩ := h.exists_of_get hget
      rw [h.note_eq ha hnote hname]
      exact decide_eq_true (hbuilt.total (hdistinct a ha)).1
    · obtain ⟨sp, hget⟩ := ZMap.has_eq_true.1 hnam
      obtain ⟨a, ha, hname, -⟩ := h.exists_of_get hget
      exact ⟨a.note, h.note_mem ha, hname.symm⟩
    · rw [hfee]
      exact h.total_eq fun a _ sp hbuilt => hbuilt.fee
    · have hassets : (allocs.map Allocation.note).map Nnote.assets
          = allocs.map fun a => giftsTo (fun _ => true) a.specs + a.fee := by
        rw [map_map]
        refine map_congr_left fun a ha => ?_
        obtain ⟨sp, -, hbuilt⟩ := h.exists_get ha
        exact ((hbuilt.total (hdistinct a ha)).2.1).symm
      have hall := hparts fun _ => true
      rw [(h.spent_perm.map _).sum_eq, hassets, sum_map_add, hall, if_pos rfl]
      omega
    · rw [h.total_eq fun a ha sp hbuilt => (hbuilt.total (hdistinct a ha)).2.2 root]
      exact hparts (hasRoot root)

end Entered

/-! ### The gate -/

theorem Conserves.perm {notes notes' : List Nnote} {fee : Nat}
    {spends : Spends} (hperm : notes.Perm notes') (h : Conserves notes orders fee lok spends) :
    Conserves notes' orders fee lok spends := by
  obtain ⟨hnote, hspent, hfees, refund, hassets, hlocks⟩ := h
  refine ⟨fun note hmem => hnote note (hperm.mem_iff.2 hmem), fun nam hnam => ?_, hfees, refund, ?_,
    hlocks⟩
  · obtain ⟨note, hmem, hname⟩ := hspent nam hnam
    exact ⟨note, hperm.mem_iff.1 hmem, hname⟩
  · rw [← hassets]
    exact ((hperm.filter _).map _).sum_eq.symm

/-- Sorting with enough fuel loses no note. -/
theorem sortByAssets_perm {n : Nat} {notes : List Nnote} (hn : notes.length ≤ n) :
    (sortByAssets n notes).Perm notes := by
  induction n generalizing notes with
  | zero =>
    rw [eq_nil_of_length_eq_zero (Nat.le_zero.1 hn)]
    exact .refl _
  | succ n ih =>
    cases notes with
    | nil => exact .refl _
    | cons note notes =>
      rw [sortByAssets, partition_eq_filter_filter]
      rw [length_cons] at hn
      have hlarger : (notes.filter fun c => decide (note.assets < c.assets)).length ≤ n :=
        (length_filter_le _ _).trans (by omega)
      have hothers : (notes.filter (not ∘ fun c => decide (note.assets < c.assets))).length ≤ n :=
        (length_filter_le _ _).trans (by omega)
      refine perm_middle.trans (List.Perm.cons note ?_)
      exact ((ih hlarger).append (ih hothers)).trans (filter_append_perm _ notes)

theorem refundable_multisigLock (h : multisigLock note = some lok) : Refundable lok := by
  unfold multisigLock at h
  split at h
  · cases h
  split at h
  case h_1 lp _ =>
    obtain ⟨-, h⟩ := Option.ite_none_left_eq_some.1 h
    cases h
    exact ⟨lp, rfl⟩
  · cases h

theorem refundable_sharedMultisigLock {notes : List Nnote}
    (h : sharedMultisigLock notes = some (some lok)) : Refundable lok := by
  induction notes with
  | nil => cases h
  | cons note notes ih =>
    unfold sharedMultisigLock at h
    split at h
    · exact ih h
    case h_2 shared hshared =>
      simp only [bind_eq_some, pure_eq_some, Option.some.injEq] at h
      obtain ⟨root, -, first, -, -, -, rfl⟩ := h
      exact refundable_multisigLock hshared

/-- The refund goes to a lock that asks for signatures and for nothing else. -/
theorem refundable_refundLock {notes : List Nnote} {senderPkh : Digest} {refundPkh : Option Digest}
    (h : refundLock notes senderPkh refundPkh = some lok) : Refundable lok := by
  unfold refundLock at h
  split at h
  · obtain ⟨pkh, -, rfl⟩ := Option.map_eq_some_iff.1 h
    exact ⟨_, rfl⟩
  · obtain ⟨shared, hshared, h⟩ := bind_eq_some.1 h
    split at h
    · cases h
      exact ⟨_, rfl⟩
    cases h
    cases shared with
    | none => exact ⟨_, rfl⟩
    | some shared => exact refundable_sharedMultisigLock hshared

/-- The wallet's own check of the orders rules out a gift of zero. -/
theorem positive_of_ordersValid (h : (ordersValid orders).toBool) : Positive orders := by
  have hall : ∀ orders : List Order, (orders.forM Order.valid).toBool → Positive orders := by
    intro orders
    induction orders with
    | nil => exact fun _ => forall_mem_nil _
    | cons ord orders ih =>
      intro hvalid
      change (ord.valid >>= fun _ => orders.forM Order.valid).toBool = true at hvalid
      cases hord : ord.valid with
      | error t =>
        rw [hord] at hvalid
        cases hvalid
      | ok u =>
        rw [hord] at hvalid
        exact forall_mem_cons.2 ⟨Order.gift_pos_of_valid hord, ih hvalid⟩
  unfold ordersValid at h
  split at h
  · cases h
  · exact hall orders h

/-- Where the builder returns spends of notes with different names, these conserve the value exactly
if no note pays two equal outputs. -/
theorem conserves_iff {notes : List Nnote} {fee : Nat}
    {signerPubkeys : List SchnorrPubkey} {refundPkh : Option Digest} {includeData : Bool}
    {spends : Spends}
    (h : txBuilder notes orders fee signerPubkeys refundPkh includeData = some spends)
    (hnames : (notes.map Nnote.name).Nodup) :
    ∃ senderPubkey senderPkh lok, signerPubkeys.head? = some senderPubkey ∧
      hashHashable senderPubkey.hashable = some senderPkh ∧
      refundLock (sortByAssets notes.length notes) senderPkh refundPkh = some lok ∧
      (Conserves notes orders fee lok spends ↔
        Distinct includeData (allocations lok (sortByAssets notes.length notes) fee orders)) := by
  simp only [txBuilder, bind_eq_some, Option.guard_eq_some', pure_eq_some] at h
  obtain ⟨-, hvalid, senderPubkey, hsender, senderPkh, hpkh, raw, hraw, -, -, -, -, rfl⟩ := h
  simp only [rawSpends, bind_eq_some] at hraw
  obtain ⟨lok, hlok, hraw⟩ := hraw
  refine ⟨senderPubkey, senderPkh, lok, hsender, hpkh, hlok, ?_⟩
  have hperm : (sortByAssets notes.length notes).Perm notes := sortByAssets_perm le_rfl
  -- the spends of either version are made by the same loop
  obtain ⟨unlock, hunlock, hcreate⟩ : ∃ unlock, Faithful unlock ∧ createSpends includeData unlock
      (sortByAssets notes.length notes) orders fee lok = some raw := by
    split at hraw
    · exact ⟨_, faithful_unlock0 senderPubkey, hraw⟩
    · simp only [bind_eq_some] at hraw
      obtain ⟨-, -, hraw⟩ := hraw
      exact ⟨_, faithful_unlock1 senderPkh, hraw⟩
  simp only [createSpends, bind_eq_some, Option.guard_eq_some', pure_eq_some] at hcreate
  obtain ⟨final, hfinal, -, ⟨horders, hpaid⟩, rfl⟩ := hcreate
  obtain ⟨entries, refund, hspent⟩ := spent_of_processSpends hunlock (refundable_refundLock hlok)
    (positive_of_ordersValid hvalid) hfinal
  have hsorted : ((sortByAssets notes.length notes).map Nnote.name).Nodup :=
    (hperm.map _).nodup_iff.2 hnames
  have hentered := Entered.of_gas hspent.built (sublist_allocations _ _ _ _) hsorted
  have hfee := hspent.fee
  have hparts := hspent.parts
  rw [hpaid] at hfee
  simp only [horders, giftsTo_nil, Nat.add_zero] at hparts
  rw [hspent.spends]
  exact ⟨fun hc => (hentered.conserves_iff_distinct hfee hparts).1 (hc.perm hperm.symm),
    fun hd => ((hentered.conserves_iff_distinct hfee hparts).2 hd).perm hperm⟩

end Builder

/-! ### Two orders of one amount to one recipient -/

section Twice

local instance twiceTip5 : Tip5 := mixTip5

def twiceKey : SchnorrPubkey := ⟨⟨1, 0, 0, 0, 0, 0⟩, ⟨0, 0, 0, 0, 0, 0⟩, false⟩

/-- A version 0 note of one key. -/
def twiceNote : Nnote := .v0
  { originPage := 1, timelock := none, name := ⟨.ofNat 1, .ofNat 2⟩,
    sig := ⟨1, ZSet.put ∅ twiceKey⟩, source := ⟨.ofNat 3, false⟩, assets := 2000010 }

/-- The transaction for two orders of five, and a fee of two million. The estimate is below that:
one word for each seed and 31 for the signature, at `2 ^ 15` each. -/
def twiceSpends (first second : Digest) : Option Spends :=
  txBuilder [twiceNote] [.pkh first 5, .pkh second 5] 2000000 [twiceKey]
    (some (.ofNat 7)) false

theorem not_conserves_twice : ∃ spends, twiceSpends (.ofNat 4) (.ofNat 4) = some spends ∧
    ¬ Conserves [twiceNote] [.pkh (.ofNat 4) 5, .pkh (.ofNat 4) 5] 2000000 (simpleLock (.ofNat 7))
      spends := by
  obtain ⟨spends, hspends, hgap⟩ : ∃ spends, twiceSpends (.ofNat 4) (.ofNat 4) = some spends ∧
      (spends.get twiceNote.name).any (fun sp => !sp.checkGiftsAndFee twiceNote) = true :=
    exists_some_of_any (fun spends : Spends =>
      (spends.get twiceNote.name).any (fun sp => !sp.checkGiftsAndFee twiceNote) = true)
      (by decide +kernel)
  refine ⟨spends, hspends, fun hconserves => ?_⟩
  cases hget : spends.get twiceNote.name with
  | none =>
    rw [hget] at hgap
    cases hgap
  | some sp =>
    rw [hget, Option.any_some, hconserves.note twiceNote (.head _) sp hget] at hgap
    cases hgap

/-- Two orders of one amount to two recipients are paid. -/
theorem conserves_two : ∃ spends, twiceSpends (.ofNat 4) (.ofNat 5) = some spends ∧
    Conserves [twiceNote] [.pkh (.ofNat 4) 5, .pkh (.ofNat 5) 5] 2000000 (simpleLock (.ofNat 7))
      spends := by
  obtain ⟨spends, hspends, -⟩ := exists_some_of_any (x := twiceSpends (.ofNat 4) (.ofNat 5))
    (fun _ => True) (by decide +kernel)
  obtain ⟨key, pkh, lok, hkey, -, hlok, hiff⟩ := conserves_iff hspends (nodup_singleton _)
  cases hkey
  obtain rfl : simpleLock (.ofNat 7) = lok := Option.some.inj hlok
  exact ⟨spends, hspends, hiff.2 (by unfold Distinct; decide +kernel)⟩

end Twice

end Nockchain.Wallet
