import Nockchain.Noun

/-!
# `Nockchain.Vm.Jets`: registered cores and the jets for them

`Cold` of `jets/cold.rs` has every core that a hint registered: under a path of names, as the
batteries of the core and of its parents up to a root. `Warm` of `jets/warm.rs` is built from it
and from the list of jets, and finds the jet for a formula and a subject.

The hash maps are functions here, with the linked lists in them as lists, and equality of nouns is
equality. A panic is `none`.
-/

set_option autoImplicit false

namespace Nockchain.Vm

/-- `Hamt`. -/
abbrev Hamt (α : Type) := Noun → Option α

/-- `insert`. -/
def Hamt.insert {α : Type} (m : Hamt α) (key : Noun) (value : α) : Hamt α :=
  Function.update m key (some value)

/-- The list at a key, empty if there is none. -/
def Hamt.listAt {α : Type} (m : Hamt (List α)) (key : Noun) : List α := (m key).getD []

/-- Putting an element in front of the list at a key. -/
def Hamt.push {α : Type} (m : Hamt (List α)) (key : Noun) (value : α) : Hamt (List α) :=
  m.insert key (value :: m.listAt key)

/-! ### Cold -/

/-- `Batteries`: each battery with the axis of the parent, the outermost first. -/
abbrev Batteries := List (Noun × Nat)

/-- The loop of `Batteries::matches`. -/
def Batteries.matchesLoop : Batteries → Bool → Noun → Option Bool
  | [], rootFound, _ => if rootFound then some true else none
  | (battery, parentAxis) :: rest, rootFound, core =>
    if rootFound then none
    else if parentAxis = 0 then
      if core = battery then matchesLoop rest true core else some false
    else
      match core.slot 2 with
      | none => some false
      | some coreBattery =>
        if coreBattery ≠ battery then some false
        else match core.slot parentAxis with
          | none => some false
          | some coreParent => matchesLoop rest false coreParent

/-- `Batteries::matches`. -/
def Batteries.matches (b : Batteries) (core : Noun) : Option Bool := b.matchesLoop false core

/-- `BatteriesList::matches`: the first that matches. -/
def batteriesListMatches (l : List Batteries) (core : Noun) : Option (Option Batteries) :=
  l.findM? fun b => b.matches core

/-- `Cold`. -/
structure Cold where
  batteryToPaths : Hamt (List Noun)
  rootToPaths : Hamt (List Noun)
  pathToBatteries : Hamt (List Batteries)

/-- `Error`. -/
inductive ColdError where
  | noParent
  | badNock
deriving DecidableEq, Repr

/-- What `register` returns. -/
abbrev Registered := Except ColdError Bool

namespace Cold

/-- `Cold::new`. -/
def new : Cold := ⟨fun _ => none, fun _ => none, fun _ => none⟩

/-- `Cold::find`. -/
def find (c : Cold) (path : Noun) : List Batteries := c.pathToBatteries.listAt path

/-- `register` of a root. -/
def registerRoot (c : Cold) (core chum : Noun) : Registered × Cold :=
  let rootPath : Noun := .cell chum (.atom 0)
  if rootPath ∈ c.rootToPaths.listAt core then (.ok false, c)
  else (.ok true,
    { c with
      rootToPaths := c.rootToPaths.push core rootPath
      pathToBatteries := c.pathToBatteries.push rootPath [(core, 0)] })

/-- Whether a path of the battery already has this core under this name. -/
def isRegistered (c : Cold) (core chum : Noun) (path : Noun) : Option Bool :=
  match path with
  | .atom _ => some false
  | .cell head _ =>
    if head = chum then do return (← batteriesListMatches (c.find path) core).isSome
    else some false

/-- The turn of the loops of `register` for a path of the parent. -/
def registerUnder (battery : Noun) (parentAxis : Nat) (chum parent : Noun) (s : Bool × Cold)
    (aPath : Noun) : Option (Bool × Cold) := do
  match ← batteriesListMatches (s.2.find aPath) parent with
  | none => return s
  | some parentBatteries =>
    let myPath : Noun := .cell chum aPath
    return (true,
      { s.2 with
        pathToBatteries :=
          s.2.pathToBatteries.push myPath ((battery, parentAxis) :: parentBatteries)
        batteryToPaths := s.2.batteryToPaths.push battery myPath })

/-- `register` of a core that has a parent. The paths of the parent are those of the state before,
also while the state is extended. -/
def registerCore (c : Cold) (core : Noun) (parentAxis : Nat) (chum : Noun) :
    Option (Registered × Cold) :=
  match core.slot 2, core.slot parentAxis with
  | some battery, some parent => do
    if ← (c.batteryToPaths.listAt battery).anyM (c.isRegistered core chum) then
      return (.ok false, c)
    match parent.slot 2 with
    | none => return (.error .badNock, c)
    | some parentBattery =>
      let paths := c.batteryToPaths.listAt parentBattery ++ c.rootToPaths.listAt parent
      let (found, c') ← paths.foldlM (registerUnder battery parentAxis chum parent) (false, c)
      return (if found then .ok true else .error .noParent, c')
  | _, _ => some (.error .badNock, c)

/-- `Cold::register`. -/
def register (c : Cold) (core : Noun) (parentAxis : Nat) (chum : Noun) :
    Option (Registered × Cold) :=
  if parentAxis = 0 then some (c.registerRoot core chum) else c.registerCore core parentAxis chum

end Cold

/-- `Cold::matches`: the first path of the battery under which the core matches. -/
def Cold.matches (c : Cold) (core : Noun) : Option (Option Noun) :=
  match core.slot 2 with
  | none => some none
  | some battery => (c.batteryToPaths.listAt battery).findM? fun path => do
    return (← batteriesListMatches (c.find path) core).isSome

/-! ### Warm -/

/-- An entry of `Hot`: a path, the axis of a formula in the battery, a jet. -/
structure HotEntry (Jet : Type) where
  path : Noun
  axis : Nat
  jet : Jet

/-- `WarmEntryMem`. -/
structure WarmEntry (Jet : Type) where
  batteries : Batteries
  jet : Jet
  path : Noun
  test : Bool

/-- `Warm`: the entries for a formula. -/
abbrev Warm (Jet : Type) := Hamt (List (WarmEntry Jet))

/-- `JetLookupResult`. -/
inductive JetLookupResult (Jet : Type) where
  | run (jet : Jet) (path : Noun)
  | test (jet : Jet) (path : Noun)
  | noJet

/-- The jet that was found, with its path. -/
def JetLookupResult.found {Jet : Type} : JetLookupResult Jet → Option (Jet × Noun)
  | run jet path | test jet path => some (jet, path)
  | noJet => none

namespace Warm

variable {Jet : Type}

/-- The turn of the inner loop of `Warm::init`. Batteries that are empty are a panic. -/
def initBatteries (entry : HotEntry Jet) (test : Bool) (warm : Warm Jet) (batteries : Batteries) :
    Option (Warm Jet) :=
  match batteries with
  | [] => none
  | (battery, _) :: _ =>
    match battery.slot entry.axis with
    | none => some warm
    | some formula =>
      some (warm.push formula { batteries, jet := entry.jet, path := entry.path, test })

/-- `Warm::init`. -/
def init (cold : Cold) (hot : List (HotEntry Jet)) (testJets : Noun → Bool) : Option (Warm Jet) :=
  hot.foldlM (fun warm entry =>
      (cold.find entry.path).foldlM (initBatteries entry (testJets entry.path)) warm)
    fun _ => none

/-- `Warm::find_jet`. -/
def findJet (warm : Warm Jet) (s f : Noun) : Option (JetLookupResult Jet) := do
  match ← (warm.listAt f).findM? fun entry => entry.batteries.matches s with
  | none => return .noJet
  | some entry => return if entry.test then .test entry.jet entry.path else .run entry.jet entry.path

end Warm

end Nockchain.Vm
