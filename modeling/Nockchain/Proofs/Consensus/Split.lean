import Nockchain.Consensus.Miner
import Nockchain.Proofs.HashTable

/-!
# `Nockchain.Proofs.Consensus.Split`: the parts of a reward

`new:coinbase-split` gives every share its part of the reward, rounded down, and
what is left over to the first one. The parts add up to the reward, whatever the
shares are (`newSplit_sum`). With positive shares no round crashes, the first round
settles every part up to the coins it leaves over, and those are fewer than the shares
(`newSplit_fair`). But a share that is too small for the reward gets
nothing, and a coinbase with an empty part is refused by `based:coinbase-split`.
`Covers` is what excludes that: every share is worth at least one coin.
-/

set_option autoImplicit false

namespace Nockchain.Consensus

open Lib TxEngine ZMap List Nat

section Distribute

variable {κ : Type}

/-- The coins of the parts, while they are distributed. -/
def coinsOf (split : List (κ × Nat × Nat)) : List (κ × Nat) := split.map fun (h, _, coins) => (h, coins)

/-- The same key, with at least the coins. -/
def Gains (x y : κ × Nat) : Prop := x.1 = y.1 ∧ x.2 ≤ y.2

theorem gains_trans {split mid out : List (κ × Nat)} (h : List.Forall₂ Gains split mid)
    (h' : List.Forall₂ Gains mid out) : List.Forall₂ Gains split out :=
  forall₂_comp (fun _ _ _ hx hy => ⟨hx.1.trans hy.1, hx.2.trans hy.2⟩) h h'

/-- `out` has the keys of `split`, each with at least the coins it had, and `coins` more in all. -/
structure Grants (split out : List (κ × Nat)) (coins : Nat) : Prop where
  sum : (out.map Prod.snd).sum = (split.map Prod.snd).sum + coins
  grows : List.Forall₂ Gains split out

theorem Grants.refl (split : List (κ × Nat)) : Grants split split 0 :=
  ⟨rfl, forall₂_same.2 fun _ _ => ⟨rfl, le_rfl⟩⟩

theorem Grants.trans {split mid out : List (κ × Nat)} {coins more : Nat}
    (h : Grants split mid coins) (h' : Grants mid out more) : Grants split out (coins + more) where
  sum := by rw [h'.sum, h.sum, add_assoc]
  grows := gains_trans h.grows h'.grows

theorem grants_giveFirst {split out : List (κ × Nat)} {coins : Nat}
    (h : giveFirst coins split = some out) : Grants split out coins := by
  cases split with
  | nil => cases h
  | cons first rest =>
    cases h
    refine ⟨?_, .cons ⟨rfl, le_add_right _ _⟩ (Grants.refl rest).grows⟩
    simp only [map_cons, sum_cons]
    omega

/-- The parts after a round in which every share gets its part of the coins that remain. -/
def afterRound (totalShares remainingCoins : Nat) (split : List (κ × Nat × Nat)) :
    List (κ × Nat × Nat) :=
  split.map fun (h, share, coins) => (h, share, coins + share * remainingCoins / totalShares)

/-- What a round gives out. -/
def distributed (totalShares remainingCoins : Nat) (split : List (κ × Nat × Nat)) : Nat :=
  (split.map fun (_, share, _) => share * remainingCoins / totalShares).sum

theorem grants_afterRound (totalShares remainingCoins : Nat) (split : List (κ × Nat × Nat)) :
    Grants (coinsOf split) (coinsOf (afterRound totalShares remainingCoins split))
      (distributed totalShares remainingCoins split) := by
  induction split with
  | nil => exact .refl []
  | cons x split ih =>
    refine ⟨?_, .cons ⟨rfl, le_add_right _ _⟩ ih.grows⟩
    have hsum := ih.sum
    simp only [coinsOf, afterRound, distributed, map_cons, sum_cons] at hsum ⊢
    omega

variable {out : List (κ × Nat)}

variable {split : List (κ × Nat × Nat)}

/-- After a round the rest goes to the first share, if the round gave nothing out, and otherwise
into the next round. -/
theorem distribute_succ {totalShares rounds remainingCoins : Nat} (hne : remainingCoins ≠ 0)
    (h : distribute totalShares (rounds + 1) remainingCoins split = some out) : totalShares ≠ 0 ∧
      (distributed totalShares remainingCoins split = 0 ∧
          giveFirst remainingCoins (coinsOf (afterRound totalShares remainingCoins split))
            = some out ∨ distributed totalShares remainingCoins split ≤ remainingCoins ∧
          distribute totalShares rounds
            (remainingCoins - distributed totalShares remainingCoins split)
            (afterRound totalShares remainingCoins split) = some out) := by
  rw [distribute, if_neg hne] at h
  obtain ⟨_, htotal, h⟩ := bind_eq_some.1 h
  rw [Option.guard_eq_some'] at htotal
  refine ⟨htotal, ?_⟩
  dsimp only at h
  split_ifs at h with hnone
  · exact .inl ⟨hnone, h⟩
  · obtain ⟨_, hle, h⟩ := bind_eq_some.1 h
    rw [Option.guard_eq_some'] at hle
    exact .inr ⟨hle, h⟩

/-- Each round hands out parts of what is left, rounded down, and the first key gets the rest. -/
theorem grants_distribute {totalShares rounds remainingCoins : Nat}
    (h : distribute totalShares rounds remainingCoins split = some out) :
    Grants (coinsOf split) out remainingCoins := by
  induction rounds generalizing remainingCoins split with
  | zero =>
    rw [distribute] at h
    split_ifs at h with hzero
    · cases h
      rw [hzero]
      exact .refl _
    · exact grants_giveFirst h
  | succ rounds ih =>
    by_cases hzero : remainingCoins = 0
    · rw [distribute, if_pos hzero] at h
      cases h
      rw [hzero]
      exact .refl _
    have hround := grants_afterRound totalShares remainingCoins split
    rcases (distribute_succ hzero h).2 with ⟨hnone, hfirst⟩ | ⟨hle, hrest⟩
    · rw [hnone] at hround
      have hlast := hround.trans (grants_giveFirst hfirst)
      rwa [zero_add] at hlast
    · have hlast := hround.trans (ih hrest)
      rwa [Nat.add_sub_cancel' hle] at hlast

variable {totalShares rounds coins : Nat}

/-- No part is less than what the first round gave. -/
theorem grows_distribute (hne : coins ≠ 0)
    (h : distribute totalShares (rounds + 1) coins split = some out) :
    totalShares ≠ 0 ∧ List.Forall₂ Gains (coinsOf (afterRound totalShares coins split)) out := by
  obtain ⟨htotal, hfirst | hrest⟩ := distribute_succ hne h
  · exact ⟨htotal, (grants_giveFirst hfirst.2).grows⟩
  · exact ⟨htotal, (grants_distribute hrest.2).grows⟩

/-- Nobody is granted more than all the coins. -/
theorem Grants.within {split out : List (κ × Nat)} {coins : Nat} (h : Grants split out coins) :
    List.Forall₂ (fun x y => x.1 = y.1 ∧ x.2 ≤ y.2 ∧ y.2 ≤ x.2 + coins) split out := by
  obtain ⟨hsum, hgrows⟩ := h
  -- The other parts do not shrink, so the sum bounds what one part gains.
  have hbound : ∀ {split out : List (κ × Nat)}, List.Forall₂ Gains split out →
      (split.map Prod.snd).sum ≤ (out.map Prod.snd).sum ∧
        ∀ coins, (out.map Prod.snd).sum ≤ (split.map Prod.snd).sum + coins →
          List.Forall₂ (fun x y => x.1 = y.1 ∧ x.2 ≤ y.2 ∧ y.2 ≤ x.2 + coins) split out := by
    intro split out hgrows
    induction hgrows with
    | nil => exact ⟨le_rfl, fun _ _ => .nil⟩
    | cons hx hrest ih =>
      obtain ⟨hle, ih⟩ := ih
      have hgain := hx.2
      simp only [map_cons, sum_cons]
      refine ⟨by omega, fun coins hcoins => .cons ⟨hx.1, hx.2, by omega⟩ (ih coins (by omega))⟩
  exact (hbound hgrows).2 coins hsum.le

/-- What a round gives out and the remainders of its divisions are all the coins. -/
theorem mul_distributed (totalShares coins : Nat) (split : List (κ × Nat × Nat)) :
    totalShares * distributed totalShares coins split
        + (split.map fun x => x.2.1 * coins % totalShares).sum
      = (split.map fun x => x.2.1).sum * coins := by
  induction split with
  | nil => simp [distributed]
  | cons x split ih =>
    have hdiv := div_add_mod (x.2.1 * coins) totalShares
    have hcons : distributed totalShares coins (x :: split)
        = x.2.1 * coins / totalShares + distributed totalShares coins split := rfl
    rw [hcons, map_cons, map_cons, sum_cons, sum_cons, mul_add,
      add_mul]
    omega

/-- A round gives out what it has but for less than one coin a share. -/
theorem distributed_bounds {totalShares : Nat} (coins : Nat)
    (htotal : (split.map fun x => x.2.1).sum = totalShares) (hpos : 0 < totalShares) :
    distributed totalShares coins split ≤ coins ∧
      coins < distributed totalShares coins split + split.length := by
  have hmul := mul_distributed totalShares coins split
  rw [htotal] at hmul
  have hrem : (split.map fun x => x.2.1 * coins % totalShares).sum < split.length * totalShares := by
    have hne : split ≠ [] := by
      intro hnil
      rw [← htotal, hnil] at hpos
      exact absurd hpos (by simp)
    have hlt := sum_lt_sum_of_ne_nil hne (fun x => x.2.1 * coins % totalShares)
      (fun _ => totalShares) fun x _ => mod_lt _ hpos
    simpa using hlt
  constructor
  · exact le_of_mul_le_mul_left (by omega) hpos
  · refine Nat.lt_of_mul_lt_mul_left (a := totalShares) ?_
    rw [mul_add, mul_comm totalShares split.length]
    omega

theorem isSome_giveFirst {coins : Nat} {split : List (κ × Nat)} (hne : split ≠ []) :
    ∃ out, giveFirst coins split = some out := by
  cases split with
  | nil => exact absurd rfl hne
  | cons first rest => exact ⟨_, rfl⟩

/-- A round in which no division and no subtraction fails. -/
theorem distribute_round (hne : coins ≠ 0) (htotal : totalShares ≠ 0)
    (hle : distributed totalShares coins split ≤ coins) :
    distribute totalShares (rounds + 1) coins split =
      if distributed totalShares coins split = 0 then
        giveFirst coins (coinsOf (afterRound totalShares coins split))
      else distribute totalShares rounds (coins - distributed totalShares coins split)
        (afterRound totalShares coins split) := by
  rw [distribute, if_neg hne]
  simp only [ne_eq, htotal, not_false_eq_true, guard_true, Option.pure_def, Option.bind_eq_bind,
    Option.bind_some]
  show (if distributed totalShares coins split = 0 then _ else
    Option.bind (guard (distributed totalShares coins split ≤ coins)) _) = _
  rw [guard, if_pos hle]
  rfl

/-- The rounds never crash: no share is missing and no round gives out more than there is. -/
theorem exists_distribute {totalShares : Nat} (rounds coins : Nat)
    (htotal : (split.map fun x => x.2.1).sum = totalShares) (hpos : 0 < totalShares) :
    ∃ out, distribute totalShares rounds coins split = some out := by
  have hne : ∀ {split : List (κ × Nat × Nat)}, (split.map fun x => x.2.1).sum = totalShares →
      coinsOf split ≠ [] := by
    intro split htotal hnil
    rw [coinsOf, map_eq_nil_iff] at hnil
    rw [← htotal, hnil] at hpos
    exact absurd hpos (by simp)
  induction rounds generalizing coins split with
  | zero =>
    rw [distribute]
    split_ifs
    · exact ⟨_, rfl⟩
    · exact isSome_giveFirst (hne htotal)
  | succ rounds ih =>
    by_cases hzero : coins = 0
    · exact ⟨_, by rw [distribute, if_pos hzero]⟩
    have hround : ((afterRound totalShares coins split).map fun x => x.2.1).sum = totalShares := by
      rw [← htotal, afterRound, map_map]
      rfl
    rw [distribute_round hzero hpos.ne' (distributed_bounds coins htotal hpos).1]
    split_ifs
    · exact isSome_giveFirst (hne hround)
    · exact ih _ hround

/-- After the first round the parts are what the shares are worth, rounded down. -/
theorem forall₂_afterRound (totalShares coins : Nat) (shares : List (κ × Nat)) :
    List.Forall₂ (fun x y => x.1 = y.1 ∧ y.2 = x.2 * coins / totalShares) shares
      (coinsOf (afterRound totalShares coins (shares.map fun (h, share) => (h, share, 0)))) := by
  induction shares with
  | nil => exact .nil
  | cons x shares ih => exact .cons ⟨rfl, zero_add _⟩ ih

/-- The first round settles a part up to the coins that it leaves over. -/
theorem near_distribute {shares out : List (κ × Nat)}
    (htotal : (shares.map Prod.snd).sum = totalShares) (hpos : 0 < totalShares) (hne : coins ≠ 0)
    (h : distribute totalShares (rounds + 1) coins (shares.map fun (h, share) => (h, share, 0))
      = some out) : List.Forall₂ (fun x y => x.1 = y.1 ∧ x.2 * coins < (y.2 + 1) * totalShares ∧
      y.2 * totalShares < x.2 * coins + shares.length * totalShares) shares out := by
  set split := shares.map fun (h, share) => (h, share, 0) with hsplit
  have hshares : (split.map fun x => x.2.1).sum = totalShares := by
    rw [← htotal, map_map]
    rfl
  obtain ⟨hle, hlt⟩ := distributed_bounds coins hshares hpos
  have hgrants : Grants (coinsOf (afterRound totalShares coins split)) out
      (coins - distributed totalShares coins split) := by
    rw [distribute_round hne hpos.ne' hle] at h
    split_ifs at h with hnone
    · rw [hnone]
      exact grants_giveFirst h
    · exact grants_distribute h
  refine forall₂_comp ?_ (forall₂_afterRound totalShares coins shares) hgrants.within
  intro x y z hxy hyz
  obtain ⟨hkey, hpart⟩ := hxy
  obtain ⟨hkey', hgain, hwithin⟩ := hyz
  have hlen : split.length = shares.length := length_map _
  have hmod := mod_lt (x.2 * coins) hpos
  have hdiv := div_add_mod (x.2 * coins) totalShares
  rw [← hpart] at hdiv
  refine ⟨hkey.trans hkey', ?_, ?_⟩
  · have hmul := mul_le_mul_left totalShares hgain
    rw [add_mul, mul_comm z.2]
    omega
  have hlt' : z.2 < y.2 + shares.length := by omega
  have hmul := mul_lt_mul_of_pos_left hlt' hpos
  rw [mul_comm z.2, mul_comm shares.length]
  rw [mul_add] at hmul
  omega

end Distribute

/-! ### The split -/

/-- The two bounds of a part, as one on its distance from the exact quotient. -/
theorem abs_sub_div_lt {worth total part n : Nat} {share assets : Nat} (htotal : 0 < total)
    (hn : 1 ≤ n) (hworth : worth = share * assets) (hlow : worth < (part + 1) * total)
    (hhigh : part * total < worth + n * total) : |(part : ℚ) - share * assets / total| < n := by
  have htotal' : (0 : ℚ) < total := by exact_mod_cast htotal
  have hn' : (1 : ℚ) ≤ n := by exact_mod_cast hn
  have hlow' : (worth : ℚ) < (part + 1) * total := by exact_mod_cast hlow
  have hhigh' : (part : ℚ) * total < worth + n * total := by exact_mod_cast hhigh
  have hquot : (share : ℚ) * assets / total * total = worth := by
    rw [div_mul_cancel₀ _ htotal'.ne', hworth, cast_mul]
  rw [abs_lt]
  constructor
  · nlinarith
  · nlinarith

section Split

variable {κ : Type} [Tip5] [ToNoun κ] [DecidableEq κ] {assets : Nat} {shares split : ZMap κ Nat}

/-- Every share is worth at least one of `coins` coins. -/
def Covers (shares : ZMap κ Nat) (coins : Nat) : Prop :=
  ∀ x ∈ shares.tap, (shares.tap.map Prod.snd).sum ≤ x.2 * coins

omit [DecidableEq κ] in
theorem Covers.mono {coins coins' : Nat} (h : Covers shares coins) (hle : coins ≤ coins') :
    Covers shares coins' :=
  fun x hx => (h x hx).trans (mul_le_mul_left _ hle)

/-- What `new:coinbase-split` makes of the shares, in their order. -/
structure Parts (assets : Nat) (shares : ZMap κ Nat) (out : List (κ × Nat)) : Prop where
  keys : out.map Prod.fst = shares.tap.map Prod.fst
  sum : (out.map Prod.snd).sum = assets
  nonempty : (∀ x ∈ shares.tap, x.2 ≠ 0) → Covers shares assets → ∀ x ∈ out, x.2 ≠ 0

omit [DecidableEq κ] in
/-- A single share gets everything. -/
theorem parts_single {h : κ} (hkey : shares.tap.map Prod.fst = [h]) :
    Parts assets shares [(h, assets)] where
  keys := hkey.symm
  sum := rfl
  nonempty hpos hcovers := by
    obtain ⟨⟨h', share⟩, htap, -⟩ := map_eq_singleton_iff.1 hkey
    have hmem : (h', share) ∈ shares.tap := by rw [htap]; exact mem_singleton_self _
    have hle := hcovers _ hmem
    rw [htap] at hle
    intro x hx hzero
    rw [mem_singleton] at hx
    have hassets : assets = 0 := by rw [hx] at hzero; exact hzero
    rw [hassets] at hle
    exact hpos _ hmem (le_zero.1 hle)

omit [Tip5] [ToNoun κ] [DecidableEq κ] in
theorem sum_start (l : List (κ × Nat)) :
    ((coinsOf (l.map fun (h, share) => (h, share, 0))).map Prod.snd).sum = 0 := by
  induction l with
  | nil => rfl
  | cons x l ih => simpa [coinsOf] using ih

omit [DecidableEq κ] in
/-- The parts after three rounds. -/
theorem parts_distribute {out : List (κ × Nat)}
    (h : distribute (shares.tap.map Prod.snd).sum 3 assets
      (shares.tap.map fun (h, share) => (h, share, 0)) = some out) : Parts assets shares out where
  keys := by
    rw [← map_eq_of_forall₂ (grants_distribute h).grows fun x y hxy => hxy.1, coinsOf,
      map_map, map_map]
    rfl
  sum := by rw [(grants_distribute h).sum, sum_start, zero_add]
  nonempty hpos hcovers := by
    intro y hy
    by_cases hassets : assets = 0
    · -- shares that are not empty cover no empty reward
      obtain ⟨x, hx, -⟩ := exists_of_mem_forall₂ (grants_distribute h).grows hy
      obtain ⟨z, hz, -⟩ := mem_map.1 hx
      obtain ⟨share, hshare, -⟩ := mem_map.1 hz
      have htotal := hcovers share hshare
      have hle := single_le_sum (fun _ _ => zero_le _) _
        (mem_map_of_mem (f := Prod.snd) hshare)
      rw [hassets] at htotal
      exact absurd (le_zero.1 (hle.trans htotal)) (hpos share hshare)
    obtain ⟨htotal, hgains⟩ := grows_distribute hassets h
    obtain ⟨x, hx, -, hle⟩ := exists_of_mem_forall₂ hgains hy
    -- the part of the first round is at least one coin
    simp only [coinsOf, afterRound, map_map, mem_map] at hx
    obtain ⟨share, hshare, rfl⟩ := hx
    have hone : 1 ≤ share.2 * assets / (shares.tap.map Prod.snd).sum :=
      (one_le_div_iff (pos_of_ne_zero htotal)).2 (hcovers share hshare)
    have hpart : share.2 * assets / (shares.tap.map Prod.snd).sum ≤ y.2 := by
      simpa using hle
    omega

section New

variable (h : newSplit assets shares = some split)
include h

/-- The entries of a split are the parts of the shares. -/
theorem newSplit_spec : ∃ out, split.tap.Perm out ∧ Parts assets shares out := by
  unfold newSplit at h
  split at h
  case h_1 h' hkey =>
    cases h
    rw [tap_key] at hkey
    exact ⟨_, tap_put_perm assets (get_empty h'), parts_single hkey⟩
  case h_2 =>
    obtain ⟨out, hout, h⟩ := bind_eq_some.1 h
    cases h
    have hparts := parts_distribute hout
    refine ⟨out, ?_, hparts⟩
    have hperm := tap_gas_perm (hparts.keys ▸ shares.nodup_tap_fst) (s := ∅) fun x _ =>
      get_empty x.1
    rwa [tap_eq_nil.2 rfl, append_nil] at hperm

theorem newSplit_sum : split.val.sum = assets := by
  obtain ⟨out, hperm, hparts⟩ := newSplit_spec h
  rw [val_eq, (hperm.map Prod.snd).sum_eq, hparts.sum]

theorem newSplit_wyt : split.wyt = shares.wyt := by
  obtain ⟨out, hperm, hparts⟩ := newSplit_spec h
  rw [← length_tap, ← length_tap, hperm.length_eq, ← length_map Prod.fst,
    hparts.keys, length_map]

/-- The parts of shares that cover the assets: each belongs to a share, and none is empty or more
than there is. -/
theorem newSplit_part (hpos : ∀ x ∈ shares.tap, x.2 ≠ 0) (hcovers : Covers shares assets) {x : κ × Nat}
    (hx : x ∈ split.tap) : x.1 ∈ shares.tap.map Prod.fst ∧ x.2 ≠ 0 ∧ x.2 ≤ assets := by
  obtain ⟨out, hperm, hparts⟩ := newSplit_spec h
  have hmem : x ∈ out := hperm.mem_iff.1 hx
  refine ⟨hparts.keys ▸ mem_map_of_mem hmem, hparts.nonempty hpos hcovers x hmem, ?_⟩
  rw [← hparts.sum]
  exact single_le_sum (fun _ _ => zero_le _) _ (mem_map_of_mem hmem)

/-- The entries of a split of a based reward pass the test of `based:coinbase-split`, if the keys of
the shares pass theirs. -/
theorem newSplit_based (hpos : ∀ x ∈ shares.tap, x.2 ≠ 0) (hcovers : Covers shares assets)
    {p : κ → Bool} (hkeys : ∀ x ∈ shares.tap, p x.1) (hbased : assets < basePrime) {x : κ × Nat}
    (hx : x ∈ split.tap) : (x.2 ≠ 0 ∧ based x.2) ∧ p x.1 := by
  obtain ⟨hkey, hne, hpart⟩ := newSplit_part h hpos hcovers hx
  obtain ⟨share, hshare, hfst⟩ := mem_map.1 hkey
  exact ⟨⟨hne, decide_eq_true (hpart.trans_lt hbased)⟩, hfst ▸ hkeys share hshare⟩

end New

/-- What `new:coinbase-split` makes of positive shares: it returns, and the entries follow the
shares, each within one coin below its worth and within the number of shares above it. -/
theorem exists_newSplit (hassets : 0 < assets) (hne : shares ≠ ∅)
    (hpos : ∀ x ∈ shares.tap, 0 < x.2) :
    ∃ split out, newSplit assets shares = some split ∧ split.tap.Perm out ∧
      List.Forall₂ (fun x y => x.1 = y.1 ∧
        x.2 * assets < (y.2 + 1) * (shares.tap.map Prod.snd).sum ∧
        y.2 * (shares.tap.map Prod.snd).sum
          < x.2 * assets + shares.wyt * (shares.tap.map Prod.snd).sum) shares.tap out := by
  have htap : shares.tap ≠ [] := mt tap_eq_nil.1 hne
  have htotal : 0 < (shares.tap.map Prod.snd).sum := by
    obtain ⟨x, hx⟩ := exists_mem_of_ne_nil _ htap
    exact (hpos x hx).trans_le
      (single_le_sum (fun _ _ => zero_le _) _ (mem_map_of_mem hx))
  unfold newSplit
  split
  case h_1 h' hkey =>
    rw [tap_key] at hkey
    obtain ⟨⟨h, share⟩, htap, rfl⟩ := map_eq_singleton_iff.1 hkey
    refine ⟨_, _, rfl, tap_put_perm assets (get_empty h), ?_⟩
    have hwyt : shares.wyt = 1 := by rw [← length_tap, htap]; rfl
    have hshare : 0 < share := hpos _ (htap ▸ mem_singleton_self (h, share))
    rw [htap, hwyt]
    refine .cons ⟨rfl, ?_, ?_⟩ .nil
    · show share * assets < (assets + 1) * (share + 0)
      rw [mul_comm share]
      exact mul_lt_mul_of_pos_right (lt_succ_self _) hshare
    · show assets * (share + 0) < share * assets + 1 * (share + 0)
      rw [one_mul, mul_comm share]
      exact Nat.lt_add_of_pos_right hshare
  case h_2 =>
    have hstart : ((shares.tap.map fun (h, share) => (h, share, 0)).map fun x => x.2.1).sum
        = (shares.tap.map Prod.snd).sum := by
      rw [map_map]
      rfl
    obtain ⟨out, hout⟩ := exists_distribute 3 assets hstart htotal
    have hnear := near_distribute rfl htotal hassets.ne' hout
    have hkeys := (parts_distribute hout).keys
    have hperm := tap_gas_perm (hkeys ▸ shares.nodup_tap_fst) (s := ∅) fun x _ =>
      get_empty x.1
    rw [tap_eq_nil.2 rfl, append_nil] at hperm
    rw [length_tap] at hnear
    refine ⟨_, out, ?_, hperm, hnear⟩
    dsimp only
    rw [hout]
    rfl

/-- `new:coinbase-split` is exact and fair. Of positive assets and positive shares it returns
a split with the keys of the shares, whose coins add up to the assets, and in which nobody is
the number of shares away from the part that is proportional to theirs. -/
theorem newSplit_fair (assets : Nat) (shares : ZMap κ Nat) (hassets : 0 < assets)
    (hne : shares ≠ ∅) (hpos : ∀ k share, shares.get k = some share → 0 < share) :
    ∃ split, newSplit assets shares = some split ∧
      (∀ k, split.has k = shares.has k) ∧ split.val.sum = assets ∧
      ∀ k share coins, shares.get k = some share → split.get k = some coins →
        |(coins : ℚ) - share * assets / shares.val.sum| < shares.wyt := by
  have hpos' : ∀ x ∈ shares.tap, 0 < x.2 := fun x hx => hpos x.1 x.2 (mem_tap.1 hx)
  obtain ⟨split, out, hsplit, hperm, hnear⟩ := exists_newSplit hassets hne hpos'
  have hkeys : split.tap.map Prod.fst |>.Perm (shares.tap.map Prod.fst) := by
    rw [map_eq_of_forall₂ hnear fun x y hxy => hxy.1]
    exact hperm.map Prod.fst
  refine ⟨split, hsplit, ?_, newSplit_sum hsplit, ?_⟩
  · intro k
    have hmem : ∀ s : ZMap κ Nat, s.has k = true ↔ k ∈ s.tap.map Prod.fst := by
      intro s
      rw [has_eq_true, mem_map]
      exact ⟨fun ⟨v, hv⟩ => ⟨(k, v), mem_tap.2 hv, rfl⟩,
        fun ⟨x, hx, hfst⟩ => ⟨x.2, hfst ▸ mem_tap.1 hx⟩⟩
    rw [Bool.eq_iff_iff, hmem, hmem, hkeys.mem_iff]
  · intro k share coins hshare hcoins
    have hout : (k, coins) ∈ out := hperm.mem_iff.1 (mem_tap.2 hcoins)
    obtain ⟨⟨k', share'⟩, hmem, rfl, hlow, hhigh⟩ := exists_of_mem_forall₂ hnear hout
    obtain rfl : share' = share := Option.mem_unique (mem_tap.1 hmem) hshare
    rw [← val_eq] at hlow hhigh
    have hone : 1 ≤ shares.wyt := by
      rw [← length_tap]
      exact length_pos_of_mem hmem
    have htotal : 0 < shares.val.sum := (hpos' _ hmem).trans_le
      (single_le_sum (fun _ _ => zero_le _) _ (mem_val.2 ⟨_, hshare⟩))
    exact abs_sub_div_lt htotal hone rfl hlow hhigh

end Split

/-! ### Ten coins for three shares -/

local instance threeSharesTip5 : Tip5 := mixTip5

/-- Three equal shares. -/
def threeShares : ZMap Nat Nat := .gas ∅ [(1, 1), (2, 1), (3, 1)]

/-- Ten coins for them: nobody is as far as three coins from ten thirds. -/
theorem newSplit_fair_three : ∃ split, newSplit 10 threeShares = some split ∧
      (∀ k, split.has k = threeShares.has k) ∧ split.val.sum = 10 ∧
      ∀ k share coins, threeShares.get k = some share → split.get k = some coins →
        |(coins : ℚ) - share * (10 : Nat) / threeShares.val.sum| < threeShares.wyt := by
  have hpos : ∀ x ∈ threeShares.tap, 0 < x.2 := by decide +kernel
  exact newSplit_fair 10 threeShares (by decide) (by decide +kernel)
    fun k share h => hpos (k, share) (mem_tap.2 h)

end Nockchain.Consensus
