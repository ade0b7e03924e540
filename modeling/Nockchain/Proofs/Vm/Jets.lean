import Nockchain.Lib.Fold
import Nockchain.Vm.Jets

/-!
# `Nockchain.Proofs.Vm.Jets`: a jet runs exactly where it applies

The three maps of `Cold` are tied together by `Cold.Sound`: what is stored under a path is a chain
of batteries that ends in a root, and the chain is indexed by its battery, or by its root. Every
call of `register` keeps that, whatever was registered before, and `Batteries::matches` does not
panic on a chain. So the entries of `Warm` are the entries of the hot list, one for each chain that
is registered under its path, and `find_jet` returns a jet for a subject and a formula exactly if
some entry applies (`jets_sound`).
-/

set_option autoImplicit false

namespace Nockchain.Vm

open Lib List

/-! ### Chains -/

/-- A core and its parents up to a root, as it can be registered. -/
inductive Chain where
  | root (noun : Noun)
  | core (battery : Noun) (axis : Nat) (haxis : axis ≠ 0) (parent : Chain)

namespace Chain

/-- The chain as the code stores it. -/
def batteries : Chain → Batteries
  | root noun => [(noun, 0)]
  | core battery axis _ parent => (battery, axis) :: parent.batteries

/-- The noun matches the chain: each battery is equal, and the parents are followed up to an equal
root. -/
def Matches : Chain → Noun → Prop
  | root noun, s => s = noun
  | core battery axis _ parent, s =>
    s.slot 2 = some battery ∧ ∃ p, s.slot axis = some p ∧ parent.Matches p

/-- The battery that the chain is looked up by. The battery of a root is the root. -/
def battery : Chain → Noun
  | root noun => noun
  | core battery _ _ _ => battery

/-- The battery of a noun, by the kind of chain that it matches. -/
def batteryOf : Chain → Noun → Option Noun
  | root _, s => some s
  | core _ _ _ _, s => s.slot 2

theorem batteryOf_eq {c : Chain} {s : Noun} (h : c.Matches s) : c.batteryOf s = some c.battery := by
  cases c with
  | root noun => exact congrArg some h
  | core battery axis haxis parent => exact h.1

/-- The loop of `matches` does not panic on a chain. -/
theorem matches_batteries (c : Chain) (s : Noun) :
    ∃ b, c.batteries.matches s = some b ∧ (b ↔ c.Matches s) := by
  induction c generalizing s with
  | root noun =>
    simp only [Batteries.matches, batteries, Batteries.matchesLoop, Matches]
    by_cases h : s = noun <;> simp [h]
  | core battery axis haxis parent ih =>
    unfold Batteries.matches at ih
    simp only [Batteries.matches, batteries, Batteries.matchesLoop, Matches]
    cases hb : s.slot 2 with
    | none => simp [haxis]
    | some b =>
      cases hp : s.slot axis with
      | none => by_cases hbattery : b = battery <;> simp [haxis, hbattery]
      | some p =>
        by_cases hbattery : b = battery
        · simpa [haxis, hbattery] using ih p
        · simp [haxis, hbattery]

/-- The axis tells a root from a core, so the stored list determines the chain. -/
theorem batteries_injective : Function.Injective batteries := by
  intro c
  induction c with
  | root noun =>
    intro c' h
    cases c' with
    | root noun' => simpa [batteries] using h
    | core battery axis haxis parent =>
      simp only [batteries, cons.injEq, Prod.mk.injEq] at h
      exact absurd h.1.2.symm haxis
  | core battery axis haxis parent ih =>
    intro c' h
    cases c' with
    | root noun =>
      simp only [batteries, cons.injEq, Prod.mk.injEq] at h
      exact absurd h.1.2 haxis
    | core battery' axis' haxis' parent' =>
      simp only [batteries, cons.injEq, Prod.mk.injEq] at h
      obtain ⟨⟨rfl, rfl⟩, hparent⟩ := h
      rw [ih hparent]

theorem exists_cons (c : Chain) : ∃ axis rest, c.batteries = (c.battery, axis) :: rest := by
  cases c with
  | root noun => exact ⟨0, [], rfl⟩
  | core battery axis haxis parent => exact ⟨axis, parent.batteries, rfl⟩

end Chain

/-- Searching a list of chains does not panic, and finds the first that matches. -/
theorem findM?_matches {α : Type} {l : List α} {f : α → Batteries} (s : Noun)
    (h : ∀ x ∈ l, ∃ c : Chain, f x = c.batteries) :
    ∃ r, (l.findM? fun x => (f x).matches s) = some r ∧
      (r.isSome ↔ ∃ x ∈ l, ∃ c : Chain, f x = c.batteries ∧ c.Matches s) ∧
      ∀ x ∈ r, x ∈ l ∧ ∃ c : Chain, f x = c.batteries ∧ c.Matches s := by
  refine exists_findM? fun x hx => ?_
  obtain ⟨c, hc⟩ := h x hx
  obtain ⟨b, hb, hiff⟩ := c.matches_batteries s
  refine ⟨b, hc ▸ hb, hiff.trans ⟨fun hmatch => ⟨c, hc, hmatch⟩, ?_⟩⟩
  rintro ⟨c', hc', hmatch⟩
  rwa [← Chain.batteries_injective (hc'.symm.trans hc)]

/-! ### The lists of a map -/

section Lists

variable {α : Type} {m : Hamt (List α)} {key key' : Noun} {value x : α}

theorem mem_push : x ∈ (m.push key value).listAt key' ↔
    (key' = key ∧ x = value) ∨ x ∈ m.listAt key' := by
  unfold Hamt.push Hamt.insert Hamt.listAt
  by_cases h : key' = key
  · subst h
    simp
  · simp [h]

theorem mem_push_of_mem (h : x ∈ m.listAt key') : x ∈ (m.push key value).listAt key' :=
  mem_push.2 (.inr h)

end Lists

/-! ### What is registered -/

variable {c c' : Cold}

namespace Cold

/-- The chains that are stored can be registered, and a chain is found by its battery, or by its
root. A path that a root is indexed by has the root. -/
structure Sound (c : Cold) : Prop where
  chain : ∀ path, ∀ b ∈ c.find path, ∃ ch : Chain, b = ch.batteries
  root : ∀ path noun, (Chain.root noun).batteries ∈ c.find path ↔ path ∈ c.rootToPaths.listAt noun
  core : ∀ path battery axis haxis parent,
    (Chain.core battery axis haxis parent).batteries ∈ c.find path →
      path ∈ c.batteryToPaths.listAt battery

/-- The noun matches a chain that is registered under the path. -/
def MatchesUnder (c : Cold) (path s : Noun) : Prop :=
  ∃ ch : Chain, ch.batteries ∈ c.find path ∧ ch.Matches s

theorem sound_new : Cold.new.Sound :=
  ⟨fun _ _ h => absurd h not_mem_nil, fun _ _ => iff_of_false not_mem_nil not_mem_nil,
    fun _ _ _ _ _ h => absurd h not_mem_nil⟩

theorem Sound.batteriesListMatches (h : c.Sound) (path s : Noun) :
    ∃ r, Vm.batteriesListMatches (c.find path) s = some r ∧ (r.isSome ↔ c.MatchesUnder path s) ∧
      ∀ b ∈ r, ∃ ch : Chain, b = ch.batteries ∧ ch.batteries ∈ c.find path ∧ ch.Matches s := by
  obtain ⟨r, hr, hsome, hmem⟩ :=
    findM?_matches (l := c.find path) (f := id) s fun b hb => h.chain path b hb
  refine ⟨r, hr, ?_, ?_⟩
  · rw [hsome]
    constructor
    · rintro ⟨b, hb, ch, rfl, hmatch⟩
      exact ⟨ch, hb, hmatch⟩
    · rintro ⟨ch, hb, hmatch⟩
      exact ⟨_, hb, ch, rfl, hmatch⟩
  · intro b hb
    obtain ⟨hfind, ch, rfl, hmatch⟩ := hmem b hb
    exact ⟨ch, rfl, hfind, hmatch⟩

/-- Everything stays registered. -/
def Grows (c c' : Cold) : Prop := ∀ path, ∀ b ∈ c.find path, b ∈ c'.find path

theorem Grows.refl (c : Cold) : c.Grows c := fun _ _ h => h

theorem Grows.trans {c'' : Cold} (h : c.Grows c') (h' : c'.Grows c'') : c.Grows c'' :=
  fun path b hb => h' path b (h path b hb)

variable {path : Noun}

theorem MatchesUnder.mono {s : Noun} (h : c.MatchesUnder path s)
    (hgrows : c.Grows c') : c'.MatchesUnder path s := by
  obtain ⟨ch, hfind, hmatch⟩ := h
  exact ⟨ch, hgrows path _ hfind, hmatch⟩

/-! ### Registering a root -/

/-- A root is stored under its path from then on, whether it was before or not. -/
theorem registerRoot_spec (h : c.Sound) (core chum : Noun) :
    (c.registerRoot core chum).2.Sound ∧ c.Grows (c.registerRoot core chum).2 ∧
    (Chain.root core).batteries ∈ (c.registerRoot core chum).2.find (.cell chum (.atom 0)) ∧
    ((c.registerRoot core chum).1 = .ok false ∧ (c.registerRoot core chum).2 = c ∨
      (c.registerRoot core chum).1 = .ok true) := by
  unfold registerRoot
  by_cases hmem : Noun.cell chum (.atom 0) ∈ c.rootToPaths.listAt core
  · simp [hmem, h, h.root, Grows.refl]
  simp only [hmem, if_false]
  refine ⟨⟨?_, ?_, ?_⟩, fun path b hb => mem_push_of_mem hb, mem_push.2 (.inl ⟨rfl, rfl⟩),
    .inr trivial⟩
  · intro path b hb
    rcases mem_push.1 hb with ⟨-, rfl⟩ | hb
    · exact ⟨.root core, rfl⟩
    · exact h.chain path b hb
  · intro path noun
    -- Both lists get one element, the chain and the path, at the same root and path.
    have hnew : path = .cell chum (.atom 0) ∧ (Chain.root noun).batteries = [(core, 0)] ↔
        noun = core ∧ path = .cell chum (.atom 0) := by simp [Chain.batteries, and_comm]
    exact mem_push.trans ((or_congr hnew (h.root path noun)).trans mem_push.symm)
  · intro path battery axis haxis parent hb
    rcases mem_push.1 hb with ⟨-, heq⟩ | hb
    · simp only [Chain.batteries, cons.injEq, Prod.mk.injEq] at heq
      exact absurd heq.1.2 haxis
    · exact h.core path battery axis haxis parent hb

/-! ### Registering a core with a parent -/

section Core

variable {core battery parent chum : Noun} {axis : Nat}

/-- A core with this battery and this parent is registered under the path. -/
def HasCore (c : Cold) (path battery : Noun) (axis : Nat) (parent : Noun) : Prop :=
  ∃ haxis ch, (Chain.core battery axis haxis ch).batteries ∈ c.find path ∧ ch.Matches parent

theorem HasCore.mono (h : c.HasCore path battery axis parent)
    (hgrows : c.Grows c') : c'.HasCore path battery axis parent := by
  obtain ⟨haxis, ch, hfind, hmatch⟩ := h
  exact ⟨haxis, ch, hgrows path _ hfind, hmatch⟩

theorem HasCore.matchesUnder (h : c.HasCore path battery axis parent)
    (hbattery : core.slot 2 = some battery) (hparent : core.slot axis = some parent) :
    c.MatchesUnder path core := by
  obtain ⟨haxis, ch, hfind, hmatch⟩ := h
  exact ⟨.core battery axis haxis ch, hfind, hbattery, parent, hparent, hmatch⟩

/-- A path under which the parent matches gives the core a chain, any other path leaves the state
as it is. -/
theorem registerUnder_spec {s : Bool × Cold} (hs : s.2.Sound) (haxis : axis ≠ 0) (aPath : Noun) :
    ∃ s', registerUnder battery axis chum parent s aPath = some s' ∧ s'.2.Sound ∧ s.2.Grows s'.2 ∧
      (s.2.MatchesUnder aPath parent → s'.1 ∧ s'.2.HasCore (.cell chum aPath) battery axis parent) ∧
      (¬ s.2.MatchesUnder aPath parent → s' = s) := by
  obtain ⟨r, hr, hsome, hmem⟩ := hs.batteriesListMatches aPath parent
  cases r with
  | none =>
    have hnot : ¬ s.2.MatchesUnder aPath parent := by simpa using hsome
    refine ⟨s, ?_, hs, .refl _, fun h => absurd h hnot, fun _ => rfl⟩
    simp [registerUnder, hr]
  | some b =>
    have hmatches : s.2.MatchesUnder aPath parent := by simpa using hsome
    obtain ⟨ch, rfl, hfind, hmatch⟩ := hmem b rfl
    refine ⟨_, by simp only [registerUnder, hr, Option.bind_eq_bind, Option.bind_some]; rfl,
      ⟨?_, ?_, ?_⟩, ?_, fun _ => ⟨rfl, haxis, ch, ?_, hmatch⟩, fun h => absurd hmatches h⟩
    · intro path b hb
      rcases mem_push.1 hb with ⟨-, rfl⟩ | hb
      · exact ⟨.core battery axis haxis ch, rfl⟩
      · exact hs.chain path b hb
    · intro path noun
      have hne : (Chain.root noun).batteries ≠ (battery, axis) :: ch.batteries := by
        simp [Chain.batteries, haxis.symm]
      exact mem_push.trans ((or_iff_right fun hnew => hne hnew.2).trans (hs.root path noun))
    · intro path battery' axis' haxis' parent' hb
      rcases mem_push.1 hb with ⟨rfl, heq⟩ | hb
      · simp only [Chain.batteries, cons.injEq, Prod.mk.injEq] at heq
        exact mem_push.2 (.inl ⟨heq.1.1, rfl⟩)
      · exact mem_push_of_mem (hs.core path battery' axis' haxis' parent' hb)
    · exact fun path b hb => mem_push_of_mem hb
    · exact mem_push.2 (.inl ⟨rfl, rfl⟩)

/-- The loops of `register`. A path may only match because of what a turn before added. -/
theorem foldlM_registerUnder (haxis : axis ≠ 0) (paths : List Noun) {s : Bool × Cold}
    (hs : s.2.Sound) :
    ∃ s', paths.foldlM (registerUnder battery axis chum parent) s = some s' ∧ s'.2.Sound ∧
      s.2.Grows s'.2 ∧ (s.1 → s'.1) ∧ (∀ aPath ∈ paths, s.2.MatchesUnder aPath parent → s'.1 ∧
        s'.2.HasCore (.cell chum aPath) battery axis parent) ∧
      ((∀ aPath ∈ paths, ¬ s.2.MatchesUnder aPath parent) → s' = s) := by
  induction paths generalizing s with
  | nil => exact ⟨s, rfl, hs, .refl _, id, fun _ h => absurd h not_mem_nil, fun _ => rfl⟩
  | cons aPath paths ih =>
    obtain ⟨t, ht, htsound, hgrows, hmatch, hnot⟩ :=
      @registerUnder_spec battery parent chum axis s hs haxis aPath
    obtain ⟨s', hs', hsound, hgrows', hflag, hmatch', hnot'⟩ := ih htsound
    have hflagT : s.1 → t.1 := by
      intro hflag
      by_cases hm : s.2.MatchesUnder aPath parent
      · exact (hmatch hm).1
      · rwa [hnot hm]
    refine ⟨s', ?_, hsound, hgrows.trans hgrows', fun h => hflag (hflagT h), ?_, ?_⟩
    · rwa [foldlM_cons, ht]
    · intro p hp hm
      rcases mem_cons.1 hp with rfl | hp
      · exact ⟨hflag (hmatch hm).1, (hmatch hm).2.mono hgrows'⟩
      · exact hmatch' p hp (hm.mono hgrows)
    · intro hall
      rw [forall_mem_cons] at hall
      obtain rfl := hnot hall.1
      exact hnot' hall.2

theorem isRegistered_spec (h : c.Sound) (core chum path : Noun) :
    ∃ b, c.isRegistered core chum path = some b ∧
      (b ↔ (∃ tail, path = .cell chum tail) ∧ c.MatchesUnder path core) := by
  cases path with
  | atom a => exact ⟨false, rfl, by simp⟩
  | cell head tail =>
    by_cases hhead : head = chum
    · subst hhead
      obtain ⟨r, hr, hsome, -⟩ := h.batteriesListMatches (.cell head tail) core
      refine ⟨r.isSome, by simp [isRegistered, hr], ?_⟩
      simp [hsome]
    · exact ⟨false, by simp [isRegistered, hhead], by simp [hhead]⟩

/-- A core that is already registered under its name. -/
theorem registerCore_again (h : c.Sound)
    (hbattery : core.slot 2 = some battery) (hparent : core.slot axis = some parent)
    (hcore : c.HasCore (.cell chum path) battery axis parent) :
    c.registerCore core axis chum = some (.ok false, c) := by
  obtain ⟨b, hb, hiff⟩ := exists_anyM (l := c.batteryToPaths.listAt battery)
    fun path _ => isRegistered_spec h core chum path
  obtain ⟨haxis, ch, hfind, -⟩ := id hcore
  have hany : b := hiff.2 ⟨_, h.core _ _ _ _ _ hfind, ⟨path, rfl⟩,
    hcore.matchesUnder hbattery hparent⟩
  simp [registerCore, hbattery, hparent, hb, hany]

/-- Where the parent matches, `register` looks for it. -/
theorem mem_paths_of_matchesUnder (h : c.Sound) {parentBattery : Noun}
    (hslot : parent.slot 2 = some parentBattery) (hmatch : c.MatchesUnder path parent) :
    path ∈ c.batteryToPaths.listAt parentBattery ++ c.rootToPaths.listAt parent := by
  obtain ⟨ch, hfind, hmatch⟩ := hmatch
  cases ch with
  | root noun =>
    obtain rfl : parent = noun := hmatch
    exact mem_append_right _ ((h.root path _).1 hfind)
  | core battery axis haxis grandparent =>
    obtain ⟨hbattery, -⟩ := hmatch
    rw [hslot, Option.some.injEq] at hbattery
    exact mem_append_left _ (hbattery ▸ h.core path _ _ _ _ hfind)

end Core

/-- The core is registered under its name. -/
def Has (c : Cold) (core : Noun) (axis : Nat) (chum : Noun) : Prop :=
  if axis = 0 then (Chain.root core).batteries ∈ c.find (.cell chum (.atom 0))
  else ∃ path battery parent, core.slot 2 = some battery ∧ core.slot axis = some parent ∧
    c.HasCore (.cell chum path) battery axis parent

theorem Has.mono {core chum : Noun} {axis : Nat} (h : c.Has core axis chum)
    (hgrows : c.Grows c') : c'.Has core axis chum := by
  unfold Has at h ⊢
  split_ifs at h with haxis
  · rw [if_pos haxis]
    exact hgrows _ _ h
  · rw [if_neg haxis]
    obtain ⟨path, battery, parent, hbattery, hparent, hcore⟩ := h
    exact ⟨path, battery, parent, hbattery, hparent, hcore.mono hgrows⟩

/-- Registering it again does nothing. -/
theorem Has.register {core chum : Noun} {axis : Nat} (h : c.Has core axis chum)
    (hsound : c.Sound) : c.register core axis chum = some (.ok false, c) := by
  unfold Has at h
  unfold Cold.register
  split_ifs at h with haxis
  · rw [if_pos haxis, registerRoot, if_pos ((hsound.root _ _).1 h)]
  · obtain ⟨path, battery, parent, hbattery, hparent, hcore⟩ := h
    rw [if_neg haxis, registerCore_again hsound hbattery hparent hcore]

/-- What a call of `register` adds, if it returns that it did. -/
def Adds (c : Cold) (core : Noun) (axis : Nat) (chum : Noun) (c' : Cold) : Prop :=
  if axis = 0 then c'.MatchesUnder (.cell chum (.atom 0)) core
  else ∃ parent, core.slot axis = some parent ∧ (∃ path, c.MatchesUnder path parent) ∧
    ∀ path, c.MatchesUnder path parent → c'.MatchesUnder (.cell chum path) core

/-- What a call of `register` comes to. -/
def Registers (c : Cold) (core : Noun) (axis : Nat) (chum : Noun) : Registered → Cold → Prop
  | .ok true, c' => c.Adds core axis chum c' ∧ c'.Has core axis chum
  | .ok false, c' => c' = c ∧ ∃ path, c.MatchesUnder (.cell chum path) core
  | .error _, c' => c' = c

/-- A core with a parent: what each way out of `register` means for the state. -/
theorem registerCore_spec (h : c.Sound) {axis : Nat} (haxis : axis ≠ 0) (core chum : Noun) :
    ∃ res c', c.registerCore core axis chum = some (res, c') ∧ c'.Sound ∧ c.Grows c' ∧
      c.Registers core axis chum res c' := by
  cases hbattery : core.slot 2 with
  | none => exact ⟨.error .badNock, c, by simp [registerCore, hbattery], h, .refl c, rfl⟩
  | some battery =>
    cases hparent : core.slot axis with
    | none =>
      exact ⟨.error .badNock, c, by simp [registerCore, hbattery, hparent], h, .refl c, rfl⟩
    | some parent =>
      obtain ⟨b, hb, hiff⟩ := exists_anyM (l := c.batteryToPaths.listAt battery)
        fun path _ => isRegistered_spec h core chum path
      cases b with
      | true =>
        obtain ⟨_, -, ⟨path, rfl⟩, hmatch⟩ := hiff.1 rfl
        exact ⟨.ok false, c, by simp [registerCore, hbattery, hparent, hb], h, .refl c, rfl, path,
          hmatch⟩
      | false =>
        cases hslot : parent.slot 2 with
        | none =>
          exact ⟨.error .badNock, c, by simp [registerCore, hbattery, hparent, hb, hslot], h,
            .refl c, rfl⟩
        | some parentBattery =>
          obtain ⟨⟨found, c'⟩, hfold, hsound, hgrows, -, hmatch, hnot⟩ :=
            @foldlM_registerUnder battery parent chum axis haxis
              (c.batteryToPaths.listAt parentBattery ++ c.rootToPaths.listAt parent) (false, c) h
          have hregister : c.registerCore core axis chum =
              some (if found then .ok true else .error .noParent, c') := by
            simp [registerCore, hbattery, hparent, hb, hslot, hfold]
          refine ⟨_, c', hregister, hsound, hgrows, ?_⟩
          -- Only the paths under which the parent matches add something.
          by_cases hex : ∃ path, c.MatchesUnder path parent
          · obtain ⟨path, hpath⟩ := hex
            have hmem : ∀ path, c.MatchesUnder path parent → path ∈
                c.batteryToPaths.listAt parentBattery ++ c.rootToPaths.listAt parent :=
              fun path hpath => mem_paths_of_matchesUnder h hslot hpath
            obtain ⟨hfound, hcore⟩ := hmatch path (hmem path hpath) hpath
            obtain rfl : found := hfound
            constructor
            · rw [Adds, if_neg haxis]
              refine ⟨parent, hparent, ⟨path, hpath⟩, fun path hpath => ?_⟩
              exact (hmatch path (hmem path hpath) hpath).2.matchesUnder hbattery hparent
            · rw [Has, if_neg haxis]
              exact ⟨path, battery, parent, hbattery, hparent, hcore⟩
          · have hsame := hnot fun path _ hpath => hex ⟨path, hpath⟩
            obtain ⟨rfl, rfl⟩ := Prod.mk.inj hsame
            exact rfl

theorem register_spec (h : c.Sound) (core : Noun) (axis : Nat) (chum : Noun) :
    ∃ res c', c.register core axis chum = some (res, c') ∧ c'.Sound ∧ c.Grows c' ∧
      c.Registers core axis chum res c' := by
  unfold register
  by_cases haxis : axis = 0
  · obtain ⟨hsound, hgrows, hfind, hspec⟩ := registerRoot_spec h core chum
    refine ⟨_, _, by rw [if_pos haxis], hsound, hgrows, ?_⟩
    rcases hspec with ⟨hres, hsame⟩ | hres
    · rw [hres]
      exact ⟨hsame, .atom 0, .root core, hsame ▸ hfind, rfl⟩
    rw [hres]
    constructor
    · rw [Adds, if_pos haxis]
      exact ⟨.root core, hfind, rfl⟩
    · rwa [Has, if_pos haxis]
  · rw [if_neg haxis]
    exact registerCore_spec h haxis core chum

/-- What `matches` says of a core: a path under which it matches, and one if the core matches a
chain that has a parent. Roots are not looked up. -/
def Finds (c : Cold) (core : Noun) : Prop :=
  ∃ found, c.matches core = some found ∧ (∀ path ∈ found, c.MatchesUnder path core) ∧
    ((∃ path battery axis parent, core.slot 2 = some battery ∧ core.slot axis = some parent ∧
      c.HasCore path battery axis parent) → found.isSome)

theorem Sound.finds (h : c.Sound) (core : Noun) : c.Finds core := by
  unfold Finds Cold.matches
  cases hbattery : core.slot 2 with
  | none => exact ⟨none, rfl, by simp, by simp⟩
  | some battery =>
    have hmatches : ∀ path ∈ c.batteryToPaths.listAt battery, ∃ b,
        (do return (← Vm.batteriesListMatches (c.find path) core).isSome) = some b ∧
          (b ↔ c.MatchesUnder path core) := by
      intro path _
      obtain ⟨r, hr, hsome, -⟩ := h.batteriesListMatches path core
      exact ⟨r.isSome, by simp [hr], hsome⟩
    obtain ⟨found, hfound, hsome, hmem⟩ := exists_findM? hmatches
    refine ⟨found, hfound, fun path hpath => (hmem path hpath).2, ?_⟩
    rintro ⟨path, battery', axis, parent, hslot, hparent, hcore⟩
    obtain rfl := Option.some.inj hslot
    obtain ⟨haxis, ch, hfind, -⟩ := id hcore
    exact hsome.2 ⟨path, h.core _ _ _ _ _ hfind, hcore.matchesUnder hbattery hparent⟩

end Cold

/-! ### Dispatch -/

namespace Warm

variable {Jet : Type}

/-- The entry for a formula that a registered chain gives, for an entry of the hot list. -/
def EntryOf (batteries : List Batteries) (h : HotEntry Jet) (test : Bool) (f : Noun)
    (e : WarmEntry Jet) : Prop :=
  ∃ ch : Chain, ch.batteries ∈ batteries ∧ ch.battery.slot h.axis = some f ∧
    e = { batteries := ch.batteries, jet := h.jet, path := h.path, test }

theorem initBatteries_spec (h : HotEntry Jet) (test : Bool) (warm : Warm Jet) (ch : Chain) :
    ∃ warm', initBatteries h test warm ch.batteries = some warm' ∧ ∀ f e,
      e ∈ warm'.listAt f ↔ EntryOf [ch.batteries] h test f e ∨ e ∈ warm.listAt f := by
  obtain ⟨axis, rest, hcons⟩ := ch.exists_cons
  have hentry : ∀ f e, EntryOf [ch.batteries] h test f e ↔ ch.battery.slot h.axis = some f ∧
      e = { batteries := ch.batteries, jet := h.jet, path := h.path, test } := by
    intro f e
    constructor
    · rintro ⟨ch', hmem, hslot, rfl⟩
      rw [mem_singleton] at hmem
      obtain rfl := Chain.batteries_injective hmem
      exact ⟨hslot, rfl⟩
    · rintro ⟨hslot, rfl⟩
      exact ⟨ch, mem_singleton.2 rfl, hslot, rfl⟩
  cases hslot : ch.battery.slot h.axis with
  | none => exact ⟨warm, by simp [initBatteries, hcons, hslot], by simp [hentry, hslot]⟩
  | some formula =>
    refine ⟨_, by simp only [initBatteries, hcons, hslot]; rfl, fun f e => ?_⟩
    rw [mem_push, hentry, hslot, Option.some.injEq, eq_comm (a := f), hcons]

/-- All chains of a path, for one entry of the hot list. -/
theorem exists_foldlM_initBatteries (h : HotEntry Jet) (test : Bool) (l : List Batteries)
    (hl : ∀ b ∈ l, ∃ ch : Chain, b = ch.batteries) (warm : Warm Jet) :
    ∃ warm', l.foldlM (initBatteries h test) warm = some warm' ∧ ∀ f e,
      e ∈ warm'.listAt f ↔ EntryOf l h test f e ∨ e ∈ warm.listAt f := by
  induction l generalizing warm with
  | nil => exact ⟨warm, rfl, by simp [EntryOf]⟩
  | cons b l ih =>
    rw [forall_mem_cons] at hl
    obtain ⟨ch, rfl⟩ := hl.1
    obtain ⟨warm1, hwarm1, hmem1⟩ := initBatteries_spec h test warm ch
    obtain ⟨warm2, hwarm2, hmem2⟩ := ih hl.2 warm1
    refine ⟨warm2, by rw [foldlM_cons, hwarm1]; exact hwarm2, fun f e => ?_⟩
    rw [hmem2, hmem1, ← or_assoc]
    refine or_congr_left ?_
    simp only [EntryOf, mem_cons, not_mem_nil, or_false]
    constructor
    · rintro (⟨ch', hmem, hrest⟩ | ⟨ch', hmem, hrest⟩)
      · exact ⟨ch', .inr hmem, hrest⟩
      · exact ⟨ch', .inl hmem, hrest⟩
    · rintro ⟨ch', hmem | hmem, hrest⟩
      · exact .inr ⟨ch', hmem, hrest⟩
      · exact .inl ⟨ch', hmem, hrest⟩

/-- All entries of the hot list. -/
theorem exists_init {cold : Cold} (hcold : cold.Sound) (hot : List (HotEntry Jet))
    (testJets : Noun → Bool) :
    ∃ warm, init cold hot testJets = some warm ∧ ∀ f e, e ∈ warm.listAt f ↔
      ∃ h ∈ hot, EntryOf (cold.find h.path) h (testJets h.path) f e := by
  have hfold : ∀ warm : Warm Jet, ∃ warm', hot.foldlM (fun warm entry =>
        (cold.find entry.path).foldlM (initBatteries entry (testJets entry.path)) warm) warm =
      some warm' ∧ ∀ f e, e ∈ warm'.listAt f ↔
        (∃ h ∈ hot, EntryOf (cold.find h.path) h (testJets h.path) f e) ∨ e ∈ warm.listAt f := by
    induction hot with
    | nil => exact fun warm => ⟨warm, rfl, by simp⟩
    | cons h hot ih =>
      intro warm
      obtain ⟨warm1, hwarm1, hmem1⟩ := exists_foldlM_initBatteries h (testJets h.path)
        (cold.find h.path) (hcold.chain h.path) warm
      obtain ⟨warm2, hwarm2, hmem2⟩ := ih warm1
      refine ⟨warm2, by rw [foldlM_cons, hwarm1]; exact hwarm2, fun f e => ?_⟩
      rw [hmem2, hmem1, exists_mem_cons_iff, ← or_assoc, or_comm (b := EntryOf _ _ _ _ _)]
  obtain ⟨warm, hwarm, hmem⟩ := hfold fun _ => none
  refine ⟨warm, hwarm, fun f e => ?_⟩
  rw [hmem]
  simp [Hamt.listAt]

/-- The entry of the hot list is for this subject and this formula: the subject matches a chain that
is registered for the path, and the formula is at the axis of its battery. -/
def Applies (cold : Cold) (h : HotEntry Jet) (s f : Noun) : Prop :=
  ∃ ch : Chain, ch.batteries ∈ cold.find h.path ∧ ch.Matches s ∧
    (ch.batteryOf s).bind (·.slot h.axis) = some f

/-- Jets are found exactly where they apply. -/
def Dispatches (cold : Cold) (hot : List (HotEntry Jet)) (warm : Warm Jet) : Prop :=
  ∀ s f, ∃ r, warm.findJet s f = some r ∧ (r.found.isSome ↔ ∃ h ∈ hot, Applies cold h s f) ∧
    ∀ jet path, r.found = some (jet, path) →
      ∃ h ∈ hot, h.jet = jet ∧ h.path = path ∧ Applies cold h s f

theorem applies_iff {cold : Cold} {h : HotEntry Jet} {s f : Noun} :
    Applies cold h s f ↔ ∃ ch : Chain, ch.batteries ∈ cold.find h.path ∧ ch.Matches s ∧
      ch.battery.slot h.axis = some f := by
  constructor
  · rintro ⟨ch, hfind, hmatch, hslot⟩
    rw [ch.batteryOf_eq hmatch] at hslot
    exact ⟨ch, hfind, hmatch, hslot⟩
  · rintro ⟨ch, hfind, hmatch, hslot⟩
    refine ⟨ch, hfind, hmatch, ?_⟩
    rwa [ch.batteryOf_eq hmatch]

/-- The entries that match are those that apply. -/
theorem exists_dispatches {cold : Cold} (hcold : cold.Sound) (hot : List (HotEntry Jet))
    (testJets : Noun → Bool) : ∃ warm, init cold hot testJets = some warm ∧
      Dispatches cold hot warm := by
  obtain ⟨warm, hwarm, hmem⟩ := exists_init hcold hot testJets
  refine ⟨warm, hwarm, fun s f => ?_⟩
  obtain ⟨r, hr, hsome, hfound⟩ :=
    findM?_matches (l := warm.listAt f) (f := WarmEntry.batteries) s fun e he => by
      obtain ⟨h, -, ch, -, -, rfl⟩ := (hmem f e).1 he
      exact ⟨ch, rfl⟩
  -- An entry that matches is an entry of the hot list that applies.
  have happlies : ∀ e ∈ warm.listAt f, ∀ ch : Chain, e.batteries = ch.batteries → ch.Matches s →
      ∃ h ∈ hot, h.jet = e.jet ∧ h.path = e.path ∧ Applies cold h s f := by
    intro e he ch hch hmatch
    obtain ⟨h, hh, ch', hfind, hslot, rfl⟩ := (hmem f e).1 he
    obtain rfl := Chain.batteries_injective hch
    exact ⟨h, hh, rfl, rfl, applies_iff.2 ⟨ch', hfind, hmatch, hslot⟩⟩
  have hiff : r.isSome ↔ ∃ h ∈ hot, Applies cold h s f := by
    rw [hsome]
    constructor
    · rintro ⟨e, he, ch, hch, hmatch⟩
      obtain ⟨h, hh, -, -, happ⟩ := happlies e he ch hch hmatch
      exact ⟨h, hh, happ⟩
    · rintro ⟨h, hh, happ⟩
      obtain ⟨ch, hfind, hmatch, hslot⟩ := applies_iff.1 happ
      exact ⟨_, (hmem f _).2 ⟨h, hh, ch, hfind, hslot, rfl⟩, ch, rfl, hmatch⟩
  cases r with
  | none =>
    refine ⟨.noJet, by simp [findJet, hr], ?_, fun jet path h => by cases h⟩
    simpa [JetLookupResult.found] using hiff
  | some e =>
    obtain ⟨he, ch, hch, hmatch⟩ := hfound e rfl
    have hresult : ∃ r, warm.findJet s f = some r ∧ r.found = some (e.jet, e.path) := by
      refine ⟨_, by simp only [findJet, hr, Option.bind_eq_bind, Option.bind_some]; rfl, ?_⟩
      cases e.test <;> rfl
    obtain ⟨result, hjet, hres⟩ := hresult
    refine ⟨result, hjet, ?_, fun jet path h => ?_⟩
    · rw [hres]
      simpa using hiff
    · rw [hres, Option.some.injEq] at h
      obtain ⟨rfl, rfl⟩ := h
      exact happlies e he ch hch hmatch

end Warm

/-! ### Every history -/

/-- A sequence of calls of `register`: core, parent axis and name. -/
def Cold.registerAll (c : Cold) (calls : List (Noun × Nat × Noun)) : Option Cold :=
  calls.foldlM (fun c call => (c.register call.1 call.2.1 call.2.2).map Prod.snd) c

theorem Cold.exists_registerAll (h : c.Sound) (calls : List (Noun × Nat × Noun)) :
    ∃ cold, c.registerAll calls = some cold ∧ cold.Sound ∧ c.Grows cold := by
  induction calls generalizing c with
  | nil => exact ⟨c, rfl, h, .refl c⟩
  | cons call calls ih =>
    obtain ⟨res, c', hregister, hc', hgrows, -⟩ := c.register_spec h call.1 call.2.1 call.2.2
    obtain ⟨cold, hcold, hsound, hgrows'⟩ := ih hc'
    refine ⟨cold, ?_, hsound, hgrows.trans hgrows'⟩
    rwa [registerAll, foldlM_cons, hregister]

/-- What a call of `register` comes to for whoever calls: a core that matches from then on and
that any later call of the same finds registered, or no change at all. It says that nothing was
needed only of a core that already matches under the name. -/
def Cold.Observes (c : Cold) (core : Noun) (axis : Nat) (chum : Noun) : Registered → Cold → Prop
  | .ok true, c' => c.Adds core axis chum c' ∧ ∀ calls cold, c'.registerAll calls = some cold →
      cold.register core axis chum = some (.ok false, cold)
  | .ok false, c' => c' = c ∧ ∃ path, c.MatchesUnder (.cell chum path) core
  | .error _, c' => c' = c

theorem Cold.Registers.observes {core chum : Noun} {axis : Nat} {res : Registered}
    (h : c.Registers core axis chum res c') (hsound : c'.Sound) :
    c.Observes core axis chum res c' := by
  match res, h with
  | .ok true, ⟨hadds, hhas⟩ =>
    refine ⟨hadds, fun calls cold hcold => ?_⟩
    obtain ⟨cold', hcold', hsound', hgrows⟩ := Cold.exists_registerAll hsound calls
    rw [hcold, Option.some.injEq] at hcold'
    subst hcold'
    exact (hhas.mono hgrows).register hsound'
  | .ok false, h => exact h
  | .error _, h => exact h

/-- After any history of registrations nothing panics, jets are found exactly where they apply, a
core is found if it was registered with a parent, and a further registration makes its core match,
is a repetition, or fails without a trace. -/
theorem jets_sound (calls : List (Noun × Nat × Noun)) :
    ∃ cold, Cold.new.registerAll calls = some cold ∧
      (∀ (Jet : Type) (hot : List (HotEntry Jet)) (testJets : Noun → Bool),
        ∃ warm, Warm.init cold hot testJets = some warm ∧ Warm.Dispatches cold hot warm) ∧
      (∀ core, cold.Finds core) ∧ ∀ core axis chum, ∃ res cold', cold.register core axis chum = some (res, cold') ∧
        cold.Observes core axis chum res cold' := by
  obtain ⟨cold, hcold, hsound, -⟩ := Cold.exists_registerAll Cold.sound_new calls
  refine ⟨cold, hcold, fun Jet hot testJets => Warm.exists_dispatches hsound hot testJets,
    hsound.finds, ?_⟩
  intro core axis chum
  obtain ⟨res, cold', hregister, hsound', -, hspec⟩ := cold.register_spec hsound core axis chum
  exact ⟨res, cold', hregister, hspec.observes hsound'⟩

end Nockchain.Vm
