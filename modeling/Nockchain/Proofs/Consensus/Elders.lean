import Nockchain.Proofs.Consensus.MedianTime
import Nockchain.Proofs.Consensus.Peek

/-!
# `Nockchain.Proofs.Consensus.Elders`: catching up with a peer

A node that hears of a block without its parent asks the peer for the elders of
the block, and looks for the newest one that it has. What the peer sends is a
part of its heaviest chain (`Descends`), from a height down to genesis or over
24 blocks, and each id stands at the height of its block (`Tracked`), even where
the index mixes two chains. So the height that the node counts down to is that
of the block.

The loop leaves out height zero: where genesis is all that the two nodes share of
the list, the node takes it for another genesis and calls its peer a liar
(`not_catchesUp_genesis`). Otherwise it asks for the block above the newest that
it has. A message crashes it in two ways (`elders_iff`): the empty one, whose
highest height is below zero, and one with an id that is looked up and has a
word that is no field element. The digest of a block never has one, as
`check-digest` looks (`isBased_of_reachable`).
-/

set_option autoImplicit false

namespace Nockchain.Consensus

open Lib TxEngine List Kernel

section Elders

variable [Tip5] {c : State} {d : Derived}

/-! ### What a node sends -/

/-- Entries of the heaviest chain from a height down to `oldest`, the newest first. -/
inductive Descends (d : Derived) (oldest : Nat) : Nat → List Digest → Prop where
  | last {x : Digest} (hx : d.heaviestChain.get oldest = some x) : Descends d oldest oldest [x]
  | next {height : Nat} {x : Digest} {ids : List Digest}
      (hx : d.heaviestChain.get (height + 1) = some x) (h : Descends d oldest height ids) :
      Descends d oldest (height + 1) (x :: ids)

namespace Descends

variable {oldest height : Nat} {ids : List Digest}

theorem length_eq (h : Descends d oldest height ids) : oldest + ids.length = height + 1 := by
  induction h with
  | last _ => rfl
  | next _ _ ih => rw [length_cons]; omega

theorem le (h : Descends d oldest height ids) : oldest ≤ height := by
  induction h with
  | last _ => exact le_rfl
  | next _ _ ih => exact ih.trans (Nat.le_succ _)

/-- The ids are the entries of the heights in between. -/
theorem mem_iff (h : Descends d oldest height ids) {x : Digest} :
    x ∈ ids ↔ ∃ i, oldest ≤ i ∧ i ≤ height ∧ d.heaviestChain.get i = some x := by
  induction h with
  | @last y hy =>
    rw [mem_singleton]
    constructor
    · rintro rfl
      exact ⟨oldest, le_rfl, le_rfl, hy⟩
    · rintro ⟨i, hle, hge, hx⟩
      obtain rfl := le_antisymm hge hle
      exact Option.mem_unique hx hy
  | @next height y ids hy h ih =>
    rw [mem_cons, ih]
    constructor
    · rintro (rfl | ⟨i, hle, hge, hx⟩)
      · exact ⟨height + 1, h.le.trans (Nat.le_succ _), le_rfl, hy⟩
      · exact ⟨i, hle, hge.trans (Nat.le_succ _), hx⟩
    rintro ⟨i, hle, hge, hx⟩
    rcases Nat.lt_or_ge height i with hlt | hge'
    · obtain rfl : i = height + 1 := by omega
      exact .inl (Option.mem_unique hx hy)
    · exact .inr ⟨i, hle, hge', hx⟩

/-- One more entry at the old end. -/
theorem concat {x : Digest} (hx : d.heaviestChain.get oldest = some x)
    (h : Descends d (oldest + 1) height ids) : Descends d oldest height (ids ++ [x]) := by
  induction h with
  | last hy => exact .next hy (.last hx)
  | next hy _ ih => exact .next hy ih

end Descends

/-- At most 24 entries go into an answer, fewer only if it reaches height zero. -/
theorem descends_of_eldersFrom {height oldest top count : Nat} {ids answer : List Digest}
    (hids : Descends d height top ids.reverse) (hcount : ids.length = count) (hle : count ≤ 24)
    (h : eldersFrom d height ids count = some (oldest, answer)) :
    ∃ top, Descends d oldest top answer ∧ answer.length ≤ 24 ∧
      (oldest = 0 ∨ answer.length = 24) := by
  induction height generalizing ids count with
  | zero =>
    cases h
    exact ⟨top, hids, by rw [length_reverse]; omega, .inl rfl⟩
  | succ height ih =>
    unfold eldersFrom at h
    split_ifs at h with hfull
    · cases h
      exact ⟨top, hids, by rw [length_reverse]; omega,
        .inr (by rw [length_reverse]; omega)⟩
    obtain ⟨prevId, hprev, h⟩ := bind_eq_some.1 h
    have hprevIds : Descends d height top (prevId :: ids).reverse := by
      rw [reverse_cons]
      exact hids.concat hprev
    exact ih hprevIds (by rw [length_cons, hcount]) (by omega) h

/-- What a node answers: a part of its heaviest chain that ends at genesis, or of 24 blocks. -/
theorem descends_of_getElders {k : Kernel} {bid : Digest} {oldest : Nat} {ids : List Digest}
    (h : k.getElders bid = some (oldest, ids)) : ∃ top, Descends k.d oldest top ids ∧
      ids.length ≤ 24 ∧ (oldest = 0 ∨ ids.length = 24) := by
  obtain ⟨block, -, h⟩ := bind_eq_some.1 h
  obtain ⟨height, -, h⟩ := bind_eq_some.1 h
  obtain ⟨x, hx, h⟩ := bind_eq_some.1 h
  exact descends_of_eldersFrom (.last hx) rfl (by simp) h

/-! ### What a node finds -/

/-- `i` is the highest entry above genesis that the node has, among those that are listed. -/
structure Latest (c : State) (d : Derived) (oldest height i : Nat) : Prop where
  pos : i ≠ 0
  ge : oldest ≤ i
  le : i ≤ height
  known : ∃ x, d.heaviestChain.get i = some x ∧ c.blocks.has x = true
  above : ∀ j y, i < j → j ≤ height → d.heaviestChain.get j = some y → c.blocks.has y = false

/-- The loop of `heard-elders` finds the highest id that the node has, but for genesis. -/
theorem latestKnown_cases {oldest height : Nat} {ids : List Digest}
    (hids : Descends d oldest height ids)
    (hhas : ∀ x ∈ ids, c.blocks.hasM x = some (c.blocks.has x)) :
    (∃ i, latestKnown c ids height = some (some i) ∧ Latest c d oldest height i) ∨
      latestKnown c ids height = some none ∧ ∀ i x, i ≠ 0 → oldest ≤ i → i ≤ height →
        d.heaviestChain.get i = some x → c.blocks.has x = false := by
  induction hids with
  | @last x hx =>
    by_cases hpos : oldest = 0
    · exact .inr ⟨by rw [latestKnown, if_pos hpos], fun i _ hi _ hle => absurd hle (by omega)⟩
    rw [latestKnown, if_neg hpos, hhas x (mem_singleton.2 rfl)]
    cases hknown : c.blocks.has x with
    | true =>
      exact .inl ⟨oldest, rfl, hpos, le_rfl, le_rfl, ⟨x, hx, hknown⟩, fun j y hlt hle =>
        absurd hlt (not_lt.2 hle)⟩
    | false =>
      refine .inr ⟨by simp [latestKnown], fun i y _ hge hle hy => ?_⟩
      obtain rfl := le_antisymm hge hle
      rw [hx] at hy
      cases hy
      exact hknown
  | @next height x ids hx hids ih =>
    rw [latestKnown, if_neg (Nat.succ_ne_zero height), hhas x mem_cons_self]
    cases hknown : c.blocks.has x with
    | true =>
      exact .inl ⟨height + 1, rfl, Nat.succ_ne_zero height, hids.le.trans (Nat.le_succ _),
        le_rfl, ⟨x, hx, hknown⟩, fun j y hlt hle => absurd hlt (not_lt.2 hle)⟩
    | false =>
      have htop : ∀ j y, height < j → j ≤ height + 1 → d.heaviestChain.get j = some y →
          c.blocks.has y = false := by
        intro j y hlt hle hy
        obtain rfl : j = height + 1 := by omega
        rw [hx] at hy
        cases hy
        exact hknown
      rcases ih fun y hy => hhas y (mem_cons_of_mem x hy) with ⟨i, hi, hlatest⟩ | ⟨hnone, hall⟩
      · refine .inl ⟨i, by simpa using hi, hlatest.pos, hlatest.ge,
          hlatest.le.trans (Nat.le_succ _), hlatest.known, fun j y hlt hle hy => ?_⟩
        rcases Nat.lt_or_ge height j with hj | hj
        · exact htop j y hj hle hy
        · exact hlatest.above j y hlt hj hy
      · refine .inr ⟨by simpa using hnone, fun i y hpos hge hle hy => ?_⟩
        rcases Nat.lt_or_ge height i with hi | hi
        · exact htop i y hi hle hy
        · exact hall i y hpos hge hi hy

/-- The digests of the blocks can be hashed. -/
def State.BasedKeys (c : State) : Prop := ∀ x pag, c.blocks.get x = some pag → x.isBased

omit [Tip5] in
theorem basedNoun_digest (x : Digest) : basedNoun (toNoun x) = x.isBased := by
  simp [toNoun, basedNoun, Digest.isBased, Bool.and_assoc]

theorem State.BasedKeys.hasM_eq_some (h : c.BasedKeys) {x : Digest}
    (hx : x.isBased ∨ c.blocks = ∅) : c.blocks.hasM x = some (c.blocks.has x) := by
  rw [← basedNoun_digest] at hx
  exact ZMap.hasM_eq_some (fun y pag hy => (basedNoun_digest y).trans (h y pag hy)) hx

/-- Every id that the loop comes to can be looked up. An id behind a known one is not come to, and
neither is one at height zero. -/
def Findable (c : State) (ids : List Digest) (height : Nat) : Prop :=
  c.blocks ≠ ∅ → ∀ newer id older, ids = newer ++ id :: older → newer.length < height →
    (∀ x ∈ newer, c.blocks.has x = false) → id.isBased

/-- The loop returns exactly if it can look up every id that it comes to. -/
theorem State.BasedKeys.isSome_latestKnown (h : c.BasedKeys) (ids : List Digest) (height : Nat) :
    (latestKnown c ids height).isSome ↔ Findable c ids height := by
  induction ids generalizing height with
  | nil =>
    refine iff_of_true rfl fun _ newer id older heq => ?_
    simp at heq
  | cons id ids ih =>
    by_cases hheight : height = 0
    · rw [latestKnown, if_pos hheight]
      exact iff_of_true rfl fun _ newer _ _ _ hlt => absurd hlt (by omega)
    rw [latestKnown, if_neg hheight]
    by_cases hid : id.isBased ∨ c.blocks = ∅
    · rw [h.hasM_eq_some hid]
      cases hknown : c.blocks.has id with
      | true =>
        refine iff_of_true rfl fun hne newer x older heq _ hnewer => ?_
        rcases append_eq_cons_iff.1 heq.symm with ⟨rfl, hx⟩ | ⟨rest, rfl, -⟩
        · cases hx
          exact hid.resolve_right hne
        · rw [hnewer id mem_cons_self] at hknown
          cases hknown
      | false =>
        simp only [Option.bind_eq_bind, Option.bind_some, Bool.false_eq_true, if_false, ih]
        constructor
        · intro hrest hne newer x older heq hlt hnewer
          rcases append_eq_cons_iff.1 heq.symm with ⟨rfl, hx⟩ | ⟨rest, rfl, hx⟩
          · cases hx
            exact hid.resolve_right hne
          · refine hrest hne rest x older hx ?_ fun y hy => hnewer y (mem_cons_of_mem id hy)
            rw [length_cons] at hlt
            omega
        · intro hall hne newer x older heq hlt hnewer
          refine hall hne (id :: newer) x older (by rw [heq, cons_append]) ?_ ?_
          · rw [length_cons]
            omega
          · simpa [hknown] using hnewer
    · obtain ⟨hbased, hne⟩ := not_or.1 hid
      rw [ZMap.hasM_eq_none (fun y pag hy => (basedNoun_digest y).trans (h y pag hy))
        (by rwa [basedNoun_digest]) hne]
      refine iff_of_false (by simp) fun hall => hbased ?_
      exact hall hne [] id ids rfl (Nat.pos_of_ne_zero hheight) (by simp)

/-- A node that has a block has a heaviest one and a greatest height, and its index has blocks of
the right heights, whether they are on the heaviest chain or not. -/
structure Tracked (c : State) (d : Derived) : Prop where
  blocks : c.heaviestBlock = none → ∀ x, c.blocks.get x = none
  highest : d.highestBlockHeight = none → c.heaviestBlock = none
  height : ∀ i x, d.heaviestChain.get i = some x → ∃ pag, c.blocks.get x = some pag ∧ pag.height = i

/-- An answer of honest length goes to the loop. -/
theorem heardElders_eq {k : Kernel} {peerId oldest height : Nat} {ids : List Digest}
    (hlength : ids.length ≤ 24) (hshape : oldest = 0 ∨ ids.length = 24)
    (hheight : oldest + ids.length = height + 1) :
    k.heardElders (.libp2p peerId) oldest ids = (latestKnown k.c ids height).bind fun latest =>
      match latest with
      | some i => some [.requestBlock (i + 1)]
      | none =>
        if oldest = 0 then
          some (if k.c.heaviestBlock = none then [.requestBlock 0]
            else [.liarPeer peerId .differingGenesis])
        else ids.getLast?.bind fun last => k.missingParentEffects last oldest peerId := by
  have hshape' : (oldest = 0 || ids.length = 24) := by simpa using hshape
  unfold heardElders
  rcases hlatest : latestKnown k.c ids height with - | - | i <;>
    simp [Wire.getPeerId, not_lt.2 hlength, hshape', hheight, guard, hlatest]

theorem Tracked.missingParentEffects {k : Kernel} (h : Tracked k.c k.d) (blockId : Digest)
    (height peerId : Nat) : ∃ effs, k.missingParentEffects blockId height peerId = some effs ∧
      ∀ peer term, .liarPeer peer term ∉ effs := by
  unfold Kernel.missingParentEffects
  split
  case h_1 hnone =>
    rw [if_pos (h.highest hnone)]
    exact ⟨_, rfl, by simp⟩
  case h_2 highest _ =>
    split <;> exact ⟨_, rfl, by simp⟩

/-- The empty message crashes, as its highest height is below zero, and one of honest length does if
an id cannot be looked up. -/
theorem isSome_heardElders {k : Kernel} (h : Tracked k.c k.d) (hbased : k.c.BasedKeys)
    (peerId oldest : Nat) (ids : List Digest) :
    (k.heardElders (.libp2p peerId) oldest ids).isSome ↔ ¬ (oldest = 0 ∧ ids = []) ∧
      (ids.length ≤ 24 → oldest = 0 ∨ ids.length = 24 →
        Findable k.c ids (oldest + ids.length - 1)) := by
  by_cases hlength : ids.length ≤ 24
  · by_cases hshape : oldest = 0 ∨ ids.length = 24
    · cases hsum : oldest + ids.length with
      | zero =>
        obtain ⟨rfl, hnil⟩ : oldest = 0 ∧ ids.length = 0 := by omega
        obtain rfl := length_eq_zero_iff.1 hnil
        simp [heardElders, Wire.getPeerId]
      | succ height =>
        have hne : ¬ (oldest = 0 ∧ ids = []) := by
          rintro ⟨rfl, rfl⟩
          cases hsum
        have hloop := hbased.isSome_latestKnown ids height
        rw [heardElders_eq hlength hshape hsum, Nat.add_sub_cancel, and_iff_right hne,
          forall_prop_of_true hlength, forall_prop_of_true hshape, ← hloop]
        cases latestKnown k.c ids height with
        | none => rfl
        | some latest =>
          refine iff_of_true ?_ rfl
          rw [Option.bind_some]
          split
          case h_1 => rfl
          case h_2 =>
            split
            case isTrue => rfl
            case isFalse hpos =>
              have hids : ids ≠ [] := by
                rintro rfl
                rcases hshape with hzero | hfull
                · exact hpos hzero
                · cases hfull
              obtain ⟨effs, heffs, -⟩ := h.missingParentEffects (ids.getLast hids) oldest peerId
              rw [getLast?_eq_some_getLast hids, Option.bind_some, heffs]
              rfl
    · have hne : ¬ (oldest = 0 ∧ ids = []) := fun hzero => hshape (.inl hzero.1)
      have hshape' : (oldest = 0 || ids.length = 24) = false := by simpa using hshape
      simp [heardElders, Wire.getPeerId, not_lt.2 hlength, hshape', hne, hshape]
  · have hne : ¬ (oldest = 0 ∧ ids = []) := by
      rintro ⟨-, rfl⟩
      exact hlength (by simp)
    simp [heardElders, Wire.getPeerId, not_le.1 hlength, hne, hlength]

/-! ### Runs -/

/-- The entries that `update` makes are blocks of their heights. -/
theorem height_of_revise (hrooted : c.Rooted) {m m' : ZMap Nat Digest} {height : Nat} {y : Digest}
    {pag : Page} (hy : c.blocks.get y = some pag) (hheight : pag.height = height)
    (h : Derived.revise c height y m = some m') {i : Nat} {x : Digest} (hx : m'.get i = some x) :
    m.get i = some x ∨ ∃ page, c.blocks.get x = some page ∧ page.height = i := by
  have hput : ∀ {m : ZMap Nat Digest} {n y pag}, c.blocks.get y = some pag → pag.height = n →
      (m.put n y).get i = some x →
      m.get i = some x ∨ ∃ page, c.blocks.get x = some page ∧ page.height = i := by
    intro m n y pag hy hn hx
    rw [ZMap.get_put] at hx
    split_ifs at hx with hi
    · cases hx
      exact .inr ⟨pag, hy, hn.trans hi.symm⟩
    · exact .inl hx
  fun_induction Derived.revise c height y m generalizing pag with
  | case1 | case3 =>
    cases h
    exact .inl hx
  | case2 =>
    cases h
    exact hput hy hheight hx
  | case4 height y m =>
    rename_i ih
    obtain ⟨page, hpage, h⟩ := bind_eq_some.1 h
    obtain rfl : page = pag := Option.mem_unique hpage hy
    obtain ⟨par, hpar, heq⟩ := hrooted y page (.inl hy) (by omega)
    rcases ih page hpar (by omega) h with hold | hnew
    · exact hput hy hheight hold
    · exact .inr hnew

variable [Pow] [Cheetah] {cfg : Config}

/-- Every turn of the kernel keeps the index in line with the blocks. -/
theorem Tracked.of_turns {x : State × Derived} (h : Turns cfg default x) : Tracked x.1 x.2 := by
  induction h with
  | refl =>
    refine ⟨fun _ _ => rfl, fun _ => rfl, fun i x hx => ?_⟩
    cases hx
  | tail hrun hturn ih =>
    cases hturn with
    | mempool hstep hchain hheaviest =>
      have hblocks := congrArg State.Chain.blocks hchain
      refine ⟨fun hnone x => ?_, fun hnone => ?_, fun i x hx => ?_⟩
      · exact (congrArg (ZMap.get · x) hblocks).trans (ih.blocks (hheaviest ▸ hnone) x)
      · exact hheaviest.trans (ih.highest hnone)
      · obtain ⟨pag, hpag, hi⟩ := ih.height i x hx
        exact ⟨pag, (congrArg (ZMap.get · x) hblocks).trans hpag, hi⟩
    | highest =>
      exact ⟨ih.blocks, fun hnone => absurd hnone (by simp [Derived.updateHighest]), ih.height⟩
    | @accept c c' d d' pag acc henters haccepted =>
      have hc := Reachable.init.steps (Turns.steps hrun)
      have hc' := hc.steps (Turn.steps (.accept henters haccepted))
      obtain ⟨hkeeps, y, tip, hy, htip, hrevise⟩ := haccepted.revised henters hc
      refine ⟨fun hnone => ?_, fun hnone => ?_, fun i x hx => ?_⟩
      · rw [hy] at hnone
        cases hnone
      · rw [highestBlockHeight_update haccepted.derived] at hnone
        exact absurd hnone (by simp [Derived.updateHighest])
      rcases height_of_revise (State.Rooted.of_reachable hc') htip rfl hrevise hx with
        hold | hnew
      · obtain ⟨page, hpage, hi⟩ := ih.height i x hold
        exact ⟨page, hkeeps x page hpage, hi⟩
      · exact hnew

omit [Cheetah] in
theorem isBased_of_check {pag : Page} (h : pag.checkDigest = some true) : pag.digest.isBased := by
  by_contra hbased
  rw [Page.checkDigest, Bool.eq_false_iff.2 hbased] at h
  cases h

/-- Blocks are kept under the digests that were computed for them. -/
theorem isBased_of_reachable (h : Reachable cfg c) : ∀ x pag, c.BlockAt x pag → x.isBased := by
  induction h with
  | init =>
    rintro x pag (hx | ⟨heardAt, hx⟩) <;> cases hx
  | @step c c' _ hstep ih =>
    -- a page is accepted under a digest that was checked when it was heard
    have haccept : ∀ {pag : Page} {acc : TxAcc}, State.AcceptedPage cfg.bc c pag acc c' →
        pag.digest.isBased → ∀ x page, c'.blocks.get x = some page → x.isBased := by
      intro pag acc haccepted hdigest x page hx
      rw [haccepted.blocks, ZMap.get_put] at hx
      split_ifs at hx with heq
      · rwa [heq]
      · exact ih x page (.inl hx)
    have heard {pag : Page} (h : Heard cfg c pag) : pag.digest.isBased := by
      obtain ⟨par, nowSecs, hpage⟩ := h.pageChecked
      exact isBased_of_check hpage.digest
    rintro x page (hx | ⟨heardAt, hx⟩)
    · cases hstep.shift with
      | mempool hchain _ =>
        have hblocks := congrArg (fun chain => chain.blocks.get x) hchain
        exact ih x page (.inl (hblocks.symm.trans hx))
      | genesis hgenesis haccepted =>
        exact haccept haccepted (isBased_of_check (checkGenesis_eq_true hgenesis).digest) x page hx
      | page hpage _ haccepted =>
        refine haccept haccepted ?_ x page hx
        rcases hpage with hpage | ⟨heardAt, hpending⟩
        · exact heard hpage
        · exact ih _ _ (.inr ⟨heardAt, hpending⟩)
    -- A pending block was pending before, or has just been heard.
    · rcases hstep.shift.pending hx with hold | ⟨rfl, hpage⟩
      · exact ih x page (.inr ⟨heardAt, hold⟩)
      · exact heard hpage

/-- `a` takes the answer of `b` without calling it a liar, and if it has one of the blocks that are
listed then it asks for the height above the highest of these. -/
def CatchesUp (a b : Kernel) (peerId oldest : Nat) (ids : List Digest) : Prop :=
  ∃ effs, a.heardElders (.libp2p peerId) oldest ids = some effs ∧
    (∀ peer term, .liarPeer peer term ∉ effs) ∧
    ((∃ x ∈ ids, a.c.blocks.has x = true) → ∃ x ∈ ids, ∃ pag, a.c.blocks.has x = true ∧
      b.c.blocks.get x = some pag ∧ effs = [.requestBlock (pag.height + 1)] ∧
      ∀ y ∈ ids, a.c.blocks.has y = true →
        ∃ page, b.c.blocks.get y = some page ∧ page.height ≤ pag.height)

omit [TxEngine.Pow] [Cheetah] in
/-- The answer of a node is taken well exactly if it does not reach genesis, or the other node has no
block yet, or it has a listed block above genesis. -/
theorem catchesUp_iff {a b : Kernel} (ha : Tracked a.c a.d) (hb : Tracked b.c b.d)
    (hbased : a.c.BasedKeys) (hbased' : b.c.BasedKeys) {bid : Digest}
    {peerId oldest : Nat} {ids : List Digest} (hids : b.getElders bid = some (oldest, ids)) :
    CatchesUp a b peerId oldest ids ↔ oldest ≠ 0 ∨ a.c.heaviestBlock = none ∨
      ∃ x ∈ ids, a.c.blocks.has x ∧ ∃ pag, b.c.blocks.get x = some pag ∧ pag.height ≠ 0 := by
  obtain ⟨height, hdescends, hlength, hshape⟩ := descends_of_getElders hids
  have heq : a.heardElders (.libp2p peerId) oldest ids = _ :=
    heardElders_eq hlength hshape hdescends.length_eq
  have hhas : ∀ x ∈ ids, a.c.blocks.hasM x = some (a.c.blocks.has x) := by
    intro x hx
    obtain ⟨j, -, -, hj⟩ := hdescends.mem_iff.1 hx
    obtain ⟨page, hpage, -⟩ := hb.height j x hj
    exact hbased.hasM_eq_some (.inl (hbased' x page hpage))
  rcases latestKnown_cases hdescends hhas with ⟨i, hi, hlatest⟩ | ⟨hnone, hunknown⟩
  · -- a listed block above genesis is known
    obtain ⟨x, hx, hknown⟩ := hlatest.known
    obtain ⟨pag, hpag, hheight⟩ := hb.height i x hx
    have hmem : x ∈ ids := hdescends.mem_iff.2 ⟨i, hlatest.ge, hlatest.le, hx⟩
    refine iff_of_true ⟨[.requestBlock (i + 1)], by rw [heq, hi, Option.bind_some], by simp,
      fun _ => ?_⟩
      (.inr (.inr ⟨x, hmem, hknown, pag, hpag, by rw [hheight]; exact hlatest.pos⟩))
    refine ⟨x, hmem, pag, hknown, hpag, by rw [hheight], fun y hy hyknown => ?_⟩
    obtain ⟨j, -, hle, hj⟩ := hdescends.mem_iff.1 hy
    obtain ⟨page, hpage, hpageHeight⟩ := hb.height j y hj
    refine ⟨page, hpage, ?_⟩
    rw [hheight, hpageHeight]
    by_contra hlt
    rw [hlatest.above j y (not_le.1 hlt) hle hj] at hyknown
    cases hyknown
  · rw [hnone, Option.bind_some] at heq
    by_cases hzero : oldest = 0
    · rw [if_pos hzero] at heq
      by_cases hempty : a.c.heaviestBlock = none
      · rw [if_pos hempty] at heq
        refine iff_of_true ⟨_, heq, by simp, ?_⟩ (.inr (.inl hempty))
        rintro ⟨x, -, hx⟩
        obtain ⟨page, hpage⟩ := ZMap.has_eq_true.1 hx
        rw [ha.blocks hempty x] at hpage
        cases hpage
      · rw [if_neg hempty] at heq
        refine iff_of_false ?_ ?_
        · rintro ⟨effs, heffs, hliar, -⟩
          rw [heq] at heffs
          cases heffs
          exact hliar peerId .differingGenesis (mem_singleton.2 rfl)
        · rintro (hne | hnone | ⟨x, hmem, hknown, pag, hpag, hpos⟩)
          · exact hne hzero
          · exact hempty hnone
          obtain ⟨j, hge, hle, hj⟩ := hdescends.mem_iff.1 hmem
          obtain ⟨page, hpage, hheight⟩ := hb.height j x hj
          obtain rfl : pag = page := Option.mem_unique hpag hpage
          rw [hunknown j x (hheight ▸ hpos) hge hle hj] at hknown
          cases hknown
    · rw [if_neg hzero] at heq
      have hne : ids ≠ [] := by
        rintro rfl
        rcases hshape with h | h
        · exact hzero h
        · cases h
      obtain ⟨effs, heffs, hliar⟩ := ha.missingParentEffects (ids.getLast hne) oldest peerId
      rw [getLast?_eq_some_getLast hne, Option.bind_some, heffs] at heq
      refine iff_of_true ⟨effs, heq, hliar, ?_⟩ (.inl hzero)
      rintro ⟨x, hx, hknown⟩
      obtain ⟨j, hge, hle, hj⟩ := hdescends.mem_iff.1 hx
      rw [hunknown j x (by omega) hge hle hj] at hknown
      cases hknown

/-- `heard-elders` crashes on the empty message and on one with an id that it comes to and cannot
hash, and takes what `get-elders` of another node answers well as long as not all that it has of it
is genesis. -/
theorem elders_iff [Curve] {cfg' : Config} {a b : Kernel} (ha : Kernel.Reachable cfg a)
    (hb : Kernel.Reachable cfg' b) (peerId : Nat) :
    (∀ oldest ids, (a.heardElders (.libp2p peerId) oldest ids).isSome = true ↔
      ¬ (oldest = 0 ∧ ids = []) ∧ (ids.length ≤ 24 → oldest = 0 ∨ ids.length = 24 →
        Findable a.c ids (oldest + ids.length - 1))) ∧
    ∀ bid oldest ids, b.getElders bid = some (oldest, ids) →
      (CatchesUp a b peerId oldest ids ↔ oldest ≠ 0 ∨ a.c.heaviestBlock = none ∨
        ∃ x ∈ ids, a.c.blocks.has x = true ∧
          ∃ pag, b.c.blocks.get x = some pag ∧ pag.height ≠ 0) := by
  have hbased {cfg : Config} {k : Kernel} (hk : Kernel.Reachable cfg k) : k.c.BasedKeys :=
    fun x pag hx => isBased_of_reachable (Reachable.init.steps (Turns.steps hk.takes)) x pag (.inl hx)
  exact ⟨isSome_heardElders (.of_turns ha.takes) (hbased ha) peerId, fun _ _ _ hids =>
    catchesUp_iff (.of_turns ha.takes) (.of_turns hb.takes) (hbased ha) (hbased hb) hids⟩

end Elders

/-! ### A node with genesis alone -/

section GenesisAlone

attribute [local instance] shorterTip5 shorterPow shorterCheetah shorterCurve

/-- The node after so many of the pages of the slow chain. -/
theorem exists_slowNode (n : Nat) (P : Kernel → Prop) [DecidablePred P]
    (h : ((default : Kernel).pokes shorterConfig (shorterPokes.take (n + 3))).any
      (fun k => decide (P k))) : ∃ k, Kernel.Reachable shorterConfig k ∧ P k := by
  obtain ⟨k, hrun, hk⟩ := exists_some_of_any P h
  exact ⟨k, .pokes .init hrun, hk⟩

/-- A node that has only genesis calls a node with one more block a liar, and the empty message
crashes it, as does one of the right length whose words are too large. -/
theorem not_catchesUp_genesis : ∃ a b : Kernel, Kernel.Reachable shorterConfig a ∧
    Kernel.Reachable shorterConfig b ∧ a.c.blocks.get shorterGenesis.digest = some shorterGenesis ∧
    b.c.blocks.get shorterGenesis.digest = some shorterGenesis ∧
    b.getElders slowPage1.digest = some (0, [slowPage1.digest, shorterGenesis.digest]) ∧
    a.heardElders (.libp2p 0) 0 [slowPage1.digest, shorterGenesis.digest] =
      some [.liarPeer 0 .differingGenesis] ∧
    ¬ CatchesUp a b 0 0 [slowPage1.digest, shorterGenesis.digest] ∧
    a.heardElders (.libp2p 0) 0 [] = none ∧
    a.heardElders (.libp2p 0) 5 (replicate 24 (.ofNat basePrime)) = none := by
  obtain ⟨a, ha, hgenesis, hliar, hcrash⟩ := exists_slowNode 0
    (fun k => k.c.blocks.get shorterGenesis.digest = some shorterGenesis ∧
      k.heardElders (.libp2p 0) 0 [slowPage1.digest, shorterGenesis.digest] =
        some [.liarPeer 0 .differingGenesis] ∧
      k.heardElders (.libp2p 0) 0 [] = none ∧
      k.heardElders (.libp2p 0) 5 (replicate 24 (.ofNat basePrime)) = none) (by decide +kernel)
  obtain ⟨b, hb, hgenesis', helders⟩ := exists_slowNode 1
    (fun k => k.c.blocks.get shorterGenesis.digest = some shorterGenesis ∧
      k.getElders slowPage1.digest = some (0, [slowPage1.digest, shorterGenesis.digest]))
    (by decide +kernel)
  refine ⟨a, b, ha, hb, hgenesis, hgenesis', helders, hliar, ?_, hcrash⟩
  rintro ⟨effs, heffs, hnone, -⟩
  rw [hliar] at heffs
  cases heffs
  exact hnone 0 .differingGenesis (mem_singleton.2 rfl)

/-- One block later it catches up. -/
theorem catchesUp_slow : ∃ a b : Kernel,
    CatchesUp a b 0 0 [slowPage2.digest, slowPage1.digest, shorterGenesis.digest] := by
  obtain ⟨a, ha, hknown⟩ := exists_slowNode 1
    (fun k => k.c.blocks.has slowPage1.digest = true) (by decide +kernel)
  obtain ⟨b, hb, hblock, helders⟩ := exists_slowNode 2
    (fun k => k.c.blocks.get slowPage1.digest = some slowPage1 ∧ k.getElders slowPage2.digest =
      some (0, [slowPage2.digest, slowPage1.digest, shorterGenesis.digest])) (by decide +kernel)
  refine ⟨a, b, ((elders_iff ha hb 0).2 _ _ _ helders).2 (.inr (.inr ?_))⟩
  exact ⟨slowPage1.digest, by simp, hknown, slowPage1, hblock, by decide⟩

end GenesisAlone

end Nockchain.Consensus
