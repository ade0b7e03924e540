import Nockchain.Proofs.Serialization.Format

/-!
# `Nockchain.Proofs.Serialization.Decoder`: `cue` follows the scan

`follows_of_scans`: started at a position with a place to fill, the loop of
`cue` does what the scan of that position says. It panics where the scan marks
an overrun first, fails where the scan marks a long back-reference first or gets
stuck, and otherwise fills the place with the noun the scan reads, leaving the
rest of its stack as it was. The induction is over the scan; what carries it is
`Ready` (the place to fill and all free memory are blank) and `Mirrors` (the
back-reference map holds the words of the nouns the scan has started).
-/

set_option autoImplicit false

namespace Nockchain.Serialization

open Lib Function
open Vm (Error bailExit bailFail)

/-! ### Runs of the loop -/

section Runs

variable {buffer : BitSlice} {s s' s'' : CueState}

/-- Some number of turns leads from one state to the other. -/
def Runs (buffer : BitSlice) (s s' : CueState) : Prop :=
  ∃ k, ∀ turns, cueLoop buffer (turns + k) s = cueLoop buffer turns s'

/-- The loop ends with this outcome. -/
def Stops (buffer : BitSlice) (s : CueState) (o : Outcome (Memory × Option Value)) : Prop :=
  ∃ turns, cueLoop buffer turns s = some o

theorem Runs.trans (h : Runs buffer s s') (h' : Runs buffer s' s'') : Runs buffer s s'' := by
  obtain ⟨k, hk⟩ := h
  obtain ⟨k', hk'⟩ := h'
  refine ⟨k' + k, ?_⟩
  intro turns
  rw [← Nat.add_assoc, hk, hk']

variable {o : Outcome (Memory × Option Value)}

theorem Runs.stops (h : Runs buffer s s') (h' : Stops buffer s' o) : Stops buffer s o := by
  obtain ⟨k, hk⟩ := h
  obtain ⟨turns, hturns⟩ := h'
  exact ⟨turns + k, (hk turns).trans hturns⟩

theorem Runs.fails (h : Runs buffer s s') (h' : ∃ e, Stops buffer s' (.err e)) :
    ∃ e, Stops buffer s (.err e) := h'.imp fun _ => h.stops

variable {entry : CueStackEntry} {rest : List CueStackEntry}

theorem runs_turn (hs : s.stack = entry :: rest)
    (ht : cueTurn buffer entry { s with stack := rest } = .ok s') : Runs buffer s s' := by
  refine ⟨1, ?_⟩
  intro turns
  simp [cueLoop, hs, ht]

theorem stops_err {e : Error} (hs : s.stack = entry :: rest)
    (ht : cueTurn buffer entry { s with stack := rest } = .err e) : Stops buffer s (.err e) := by
  refine ⟨1, ?_⟩
  simp [cueLoop, hs, ht]

theorem stops_panic (hs : s.stack = entry :: rest)
    (ht : cueTurn buffer entry { s with stack := rest } = .panic) : Stops buffer s .panic := by
  refine ⟨1, ?_⟩
  simp [cueLoop, hs, ht]

theorem cueLoop_mono {k m : Nat} (hkm : k ≤ m)
    (h : cueLoop buffer k s = some o) : cueLoop buffer m s = some o := by
  induction k generalizing m s with
  | zero => cases h
  | succ k ih =>
    obtain ⟨m, rfl⟩ : ∃ j, m = j + 1 := ⟨m - 1, by omega⟩
    simp only [cueLoop] at h ⊢
    cases hs : s.stack with
    | nil => simpa [hs] using h
    | cons entry rest =>
      simp only [hs] at h ⊢
      cases ht : cueTurn buffer entry { s with stack := rest } with
      | ok s' => simp [ht] at h ⊢; exact ih (by omega) h
      | err e | panic => simpa [ht] using h

/-- The loop ends in one way only. -/
theorem Stops.unique {o o' : Outcome (Memory × Option Value)} (h : Stops buffer s o)
    (h' : Stops buffer s o') : o = o' := by
  obtain ⟨k, hk⟩ := h
  obtain ⟨k', hk'⟩ := h'
  have hmax := cueLoop_mono (Nat.le_max_left k k') hk
  rw [cueLoop_mono (Nat.le_max_right k k') hk'] at hmax
  exact (Option.some.inj hmax).symm

end Runs

/-! ### Memory -/

/-- The pointer leads into memory no cell has been allocated in. -/
def Fresh (free : Nat) : Pointer → Prop
  | .result => False
  | .head address => free ≤ address
  | .tail address => free ≤ address

/-- Cells that were written stay as they are. -/
def Grows (memory memory' : Memory) : Prop :=
  ∀ q v, q ≠ .result → memory q = some v → memory' q = some v

variable {v : Value}

variable {memory : Memory}

theorem Denotes.grows {memory' : Memory} {n : Noun}
    (h : Denotes memory v n) (hgrows : Grows memory memory') : Denotes memory' v n := by
  induction h with
  | atom a => exact .atom a
  | cell hhead htail _ _ ihh iht =>
    exact .cell (hgrows _ _ (by simp) hhead) (hgrows _ _ (by simp) htail) ihh iht

/-- A word stands for at most one noun. -/
theorem Denotes.unique {n n' : Noun} (h : Denotes memory v n)
    (h' : Denotes memory v n') : n = n' := by
  induction h generalizing n' with
  | atom a => cases h'; rfl
  | cell hhead htail _ _ ihh iht =>
    cases h' with
    | cell hhead' htail' hh' ht' =>
      rw [hhead] at hhead'
      rw [htail] at htail'
      cases hhead'
      cases htail'
      rw [ihh hh', iht ht']

/-- The place to fill and all free memory are blank. -/
structure Ready (s : CueState) (dest : Pointer) : Prop where
  fresh : ∀ q, Fresh s.free q → s.memory q = none
  placed : ¬ Fresh s.free dest
  blank : dest = .result ∨ s.memory dest = none

/-- Between the two states only the place and free memory were written. -/
structure Fills (s s' : CueState) (dest : Pointer) : Prop where
  free_le : s.free ≤ s'.free
  fresh : ∀ q, Fresh s'.free q → s'.memory q = none
  frame : ∀ q, q ≠ dest → ¬ Fresh s.free q → s'.memory q = s.memory q

theorem Fresh.mono {free free' : Nat} {q : Pointer} (h : free ≤ free') (hq : Fresh free' q) :
    Fresh free q := by
  cases q with
  | result => exact hq
  | head address | tail address => exact h.trans hq

theorem Fills.grows {s s' : CueState} {dest : Pointer} (h : Fills s s' dest)
    (hready : Ready s dest) : Grows s.memory s'.memory := by
  intro q v hresult hq
  have hfresh : ¬ Fresh s.free q := by
    intro hf
    rw [hready.fresh q hf] at hq
    cases hq
  have hdest : q ≠ dest := by
    intro heq
    rcases hready.blank with hd | hd
    · exact hresult (heq.trans hd)
    · rw [heq, hd] at hq
      cases hq
  rwa [h.frame q hdest hfresh]

/-- The back-reference map holds a word for every noun the scan has started,
and the right one if the noun is known. -/
structure Mirrors (memory : Memory) (backrefMap : Nat → Option Value) (st : Scan) : Prop where
  absent : ∀ p, st.started p = none → backrefMap p = none
  present : ∀ p n, st.started p = some n →
    ∃ v, backrefMap p = some v ∧ ∀ x, n = some x → Denotes memory v x

variable {backrefMap : Nat → Option Value}

theorem Mirrors.grows {memory' : Memory} {st : Scan}
    (h : Mirrors memory backrefMap st) (hgrows : Grows memory memory') :
    Mirrors memory' backrefMap st := by
  refine ⟨h.absent, ?_⟩
  intro p n hp
  obtain ⟨v, hv, hden⟩ := h.present p n hp
  exact ⟨v, hv, fun x hx => (hden x hx).grows hgrows⟩

/-- Entering a noun at a position and inserting its word there go together. -/
theorem Mirrors.enter {st : Scan} (h : Mirrors memory backrefMap st) (pos : Nat) {n : Option Noun}
    (hv : ∀ x, n = some x → Denotes memory v x) :
    Mirrors memory (update backrefMap pos (some v)) (st.enter pos n) := by
  constructor
  · intro p hp
    by_cases hpos : p = pos
    · subst hpos
      simp [Scan.enter] at hp
    · simp only [Scan.enter, update_of_ne hpos] at hp
      rw [update_of_ne hpos]
      exact h.absent p hp
  · intro p m hp
    by_cases hpos : p = pos
    · subst hpos
      simp only [Scan.enter, update_self, Option.some.injEq] at hp
      subst hp
      exact ⟨v, by simp, hv⟩
    · simp only [Scan.enter, update_of_ne hpos] at hp
      rw [update_of_ne hpos]
      exact h.present p m hp

theorem fills_of_write {s s' : CueState} {dest : Pointer} (hready : Ready s dest)
    (hfree : s.free ≤ s'.free) (hmemory : s'.memory = update s.memory dest (some v)) :
    Fills s s' dest := by
  refine ⟨hfree, ?_, ?_⟩
  · intro q hq
    have hfresh : Fresh s.free q := hq.mono hfree
    have hne : q ≠ dest := by
      intro heq
      exact hready.placed (heq ▸ hfresh)
    rw [hmemory, update_of_ne hne]
    exact hready.fresh q hfresh
  · intro q hne _
    rw [hmemory, update_of_ne hne]

/-- Filling a place in memory that was free at the start is not seen from
there. -/
theorem Fills.trans {s s' s'' : CueState} {dest inner : Pointer} (h : Fills s s' dest)
    (h' : Fills s' s'' inner) (hinner : Fresh s.free inner) : Fills s s'' dest := by
  refine ⟨h.free_le.trans h'.free_le, h'.fresh, ?_⟩
  intro q hne hq
  have hne' : q ≠ inner := by
    intro heq
    exact hq (heq ▸ hinner)
  rw [h'.frame q hne' (fun hf => hq (hf.mono h.free_le)), h.frame q hne hq]

/-! ### One noun -/

/-- The loop is about to read the noun at `pos` into `dest`, having seen what
the scan has seen, with nothing so far that stops it. -/
structure Waits (s : CueState) (dest : Pointer) (rest : List CueStackEntry) (pos : Nat)
    (st : Scan) : Prop where
  cursor : s.cursor = pos
  stack : s.stack = .destinationPointer dest :: rest
  ready : Ready s dest
  mirrors : Mirrors s.memory s.backrefMap st
  overrun : st.overrun = false
  long : st.long = false

/-- The loop has read a noun into `dest`. -/
structure HasRead (s s' : CueState) (dest : Pointer) (rest : List CueStackEntry) (stop : Nat)
    (n : Option Noun) (st : Scan) : Prop where
  cursor : s'.cursor = stop
  stack : s'.stack = rest
  fills : Fills s s' dest
  mirrors : Mirrors s'.memory s'.backrefMap st
  value : ∃ v, s'.memory dest = some v ∧ ∀ x, n = some x → Denotes s'.memory v x

/-- The loop does what the outcome of the scan says. -/
structure Follows (buffer : BitSlice) (s : CueState) (dest : Pointer)
    (rest : List CueStackEntry) (o : Except Scan (Nat × Option Noun × Scan)) : Prop where
  panics : (lastScan o).overrun = true → Stops buffer s .panic
  fails : (lastScan o).overrun = false → ((lastScan o).long = true ∨ ∃ st, o = .error st) →
    ∃ e, Stops buffer s (.err e)
  reads : ∀ stop n st, o = .ok (stop, n, st) → st.overrun = false → st.long = false →
    ∃ s', Runs buffer s s' ∧ HasRead s s' dest rest stop n st

section Follows

variable {a len : Nat} {s : CueState} {dest : Pointer} {rest : List CueStackEntry} {pos : Nat}
  {st : Scan}

/-- A scan that is stuck without marks is followed by failing. -/
theorem follows_of_err {e : Error} {buffer : BitSlice} (hstop : Stops buffer s (.err e))
    (hover : st.overrun = false) : Follows buffer s dest rest (.error st) := by
  refine ⟨?_, fun _ _ => ⟨e, hstop⟩, ?_⟩
  · intro h
    rw [lastScan, hover] at h
    cases h
  · intro _ _ _ h
    cases h

theorem nextBit_of_lt {pos : Nat} (h : pos < len) :
    nextBit pos { bits := a, len } = (a.testBit pos, pos + 1) := by
  simp [nextBit, h]

theorem nextBit_of_le {pos : Nat} (h : len ≤ pos) :
    nextBit pos { bits := a, len } = (false, pos) := by
  have hlt : ¬ len > pos := by omega
  simp [nextBit, hlt]

theorem lt_of_testBit (hlen : width a ≤ len) {pos : Nat} (h : a.testBit pos) : pos < len := by
  by_contra hge
  rw [testBit_of_width_le (by omega)] at h
  cases h

section Leaves

variable (hlen : width a ≤ len) (hw : Waits s dest rest pos st)

include hlen hw

/-- Where no field follows, the loop fails: there is no tag to read, or no
atom. -/
theorem stops_of_noAtom (htag : a.testBit pos = false) (hf : field a (pos + 1) = none) :
    Stops { bits := a, len } s (.err bailExit) := by
  apply stops_err hw.stack
  simp only [cueTurn, hw.cursor]
  by_cases hpos : pos < len
  · simp [nextBit_of_lt hpos, htag, cueAtom, rubAtom_eq hlen, hf]
  · have hnone : field a pos = none := field_eq_none_of_width_le (by omega)
    simp [nextBit_of_le (by omega : len ≤ pos), cueAtom, rubAtom_eq hlen, hnone]

variable {f : Field}

/-- The turn for an atom: it is entered for back-references and put in its place. -/
theorem follows_atom (htag : a.testBit pos = false) (hf : field a (pos + 1) = some f) :
    Follows { bits := a, len } s dest rest (.ok (f.stop, some (.atom f.value),
        (st.readAtom len f).enter pos (some (.atom f.value)))) := by
  have hpos : pos < len := by
    have := field_zeros_lt hf
    omega
  have hturn : cueTurn { bits := a, len } (.destinationPointer dest) { s with stack := rest } =
      if f.atomOverruns len then .panic
      else .ok { s with
        cursor := f.stop
        memory := update s.memory dest (some (.atom f.value))
        backrefMap := update s.backrefMap pos (some (.atom f.value))
        stack := rest } := by
    simp only [cueTurn, hw.cursor, nextBit_of_lt hpos, htag, cueAtom, rubAtom_eq hlen, hf]
    by_cases hover : f.atomOverruns len
    · simp [hover]
    · simp [hover, CueState.write, CueState.insert]
  -- The scan marks exactly the fields on which the code panics.
  have hmark : ((st.readAtom len f).enter pos (some (.atom f.value))).overrun =
      f.atomOverruns len := by
    simp [Scan.enter, Scan.readAtom, hw.overrun, hw.long]
  refine ⟨?_, ?_, ?_⟩
  · intro hover
    rw [lastScan, hmark] at hover
    rw [if_pos hover] at hturn
    exact stops_panic hw.stack hturn
  · rintro - (hlong | ⟨_, ho⟩)
    · have hnot : st.long := hlong
      rw [hw.long] at hnot
      cases hnot
    · cases ho
  · intro stop n st' ho hover _
    cases ho
    rw [hmark] at hover
    rw [hover] at hturn
    have hfills : Fills s { s with
        cursor := f.stop
        memory := update s.memory dest (some (.atom f.value))
        backrefMap := update s.backrefMap pos (some (.atom f.value))
        stack := rest } dest := fills_of_write hw.ready le_rfl rfl
    refine ⟨_, runs_turn hw.stack hturn, rfl, rfl, hfills, ?_, ?_⟩
    · have hgrown := hw.mirrors.grows (hfills.grows hw.ready)
      have hread : Mirrors (update s.memory dest (some (.atom f.value))) s.backrefMap
          (st.readAtom len f) := ⟨hgrown.absent, hgrown.present⟩
      apply hread.enter
      intro x hx
      cases hx
      exact .atom _
    · refine ⟨.atom f.value, by simp, ?_⟩
      intro x hx
      cases hx
      exact .atom _

variable (htag : a.testBit pos = true) (htag' : a.testBit (pos + 1) = true)

include htag htag'

/-- The turn that reads a back-reference, up to what it refers to. -/
theorem cueTurn_backref :
    cueTurn { bits := a, len } (.destinationPointer dest) { s with stack := rest } =
      cueBackref { bits := a, len } dest { s with cursor := pos + 2, stack := rest } := by
  simp [cueTurn, hw.cursor, nextBit_of_lt (lt_of_testBit hlen htag), htag,
    nextBit_of_lt (lt_of_testBit hlen htag'), htag']

theorem follows_noBackref (hf : field a (pos + 2) = none) :
    Follows { bits := a, len } s dest rest (.error st) := by
  refine follows_of_err (e := bailExit) (stops_err hw.stack ?_) hw.overrun
  rw [cueTurn_backref hlen hw htag htag', cueBackref, rubBackref_eq hlen, hf]
  rfl

section

variable (hf : field a (pos + 2) = some f)

include hf

/-- What a back-reference does before it is followed: the marks of the scan are
the outcomes of the reader. -/
theorem cueTurn_backref_field :
    cueTurn { bits := a, len } (.destinationPointer dest) { s with stack := rest } =
      if (st.readBackref len f).overrun then .panic
      else if (st.readBackref len f).long then .err bailFail
      else match s.backrefMap f.value with
        | none => .err bailExit
        | some v => .ok { s with
            cursor := f.stop
            memory := update s.memory dest (some v)
            stack := rest } := by
  rw [cueTurn_backref hlen hw htag htag', cueBackref, rubBackref_eq hlen, hf]
  simp only [Scan.readBackref, hw.overrun, hw.long, Bool.not_false, Bool.true_and, Bool.false_or]
  by_cases hover : f.backrefOverruns len
  · simp [hover]
  · by_cases hlong : f.isLong
    · simp [hover, hlong]
    · cases hv : s.backrefMap f.value <;> simp [hover, hlong, hv, CueState.write]

/-- A back-reference to a position where nothing began is an error. -/
theorem follows_unknown (hn : st.started f.value = none) :
    Follows { bits := a, len } s dest rest (.error (st.readBackref len f)) := by
  have hturn := cueTurn_backref_field hlen hw htag htag' hf
  rw [hw.mirrors.absent _ hn] at hturn
  refine ⟨?_, ?_, ?_⟩
  · intro hover
    rw [lastScan] at hover
    rw [if_pos hover] at hturn
    exact stops_panic hw.stack hturn
  · intro hover _
    rw [lastScan] at hover
    rw [hover] at hturn
    by_cases hlong : (st.readBackref len f).long
    · rw [if_pos hlong] at hturn
      exact ⟨_, stops_err hw.stack hturn⟩
    · rw [if_neg hlong] at hturn
      exact ⟨_, stops_err hw.stack hturn⟩
  · intro _ _ _ ho
    cases ho

/-- The turn for a back-reference to a position that has been started. -/
theorem follows_backref {n : Option Noun}
    (hn : st.started f.value = some n) :
    Follows { bits := a, len } s dest rest (.ok (f.stop, n, (st.readBackref len f).follow n)) := by
  have hturn := cueTurn_backref_field hlen hw htag htag' hf
  obtain ⟨v, hv, hden⟩ := hw.mirrors.present _ n hn
  rw [hv] at hturn
  refine ⟨?_, ?_, ?_⟩
  · intro hover
    have hover' : (st.readBackref len f).overrun := hover
    rw [if_pos hover'] at hturn
    exact stops_panic hw.stack hturn
  · rintro hover (hlong | ⟨_, ho⟩)
    · have hover' : (st.readBackref len f).overrun = false := hover
      have hlong' : (st.readBackref len f).long := hlong
      rw [hover', if_pos hlong'] at hturn
      exact ⟨_, stops_err hw.stack hturn⟩
    · cases ho
  · intro stop m st' ho hover hlong
    cases ho
    have hover' : (st.readBackref len f).overrun = false := hover
    have hlong' : (st.readBackref len f).long = false := hlong
    rw [hover', hlong', if_neg (by simp)] at hturn
    have hfills : Fills s { s with
        cursor := f.stop
        memory := update s.memory dest (some v)
        stack := rest } dest := fills_of_write hw.ready le_rfl rfl
    have hgrows := hfills.grows hw.ready
    have hgrown := hw.mirrors.grows hgrows
    refine ⟨_, runs_turn hw.stack hturn, rfl, rfl, hfills, ⟨hgrown.absent, hgrown.present⟩,
      v, by simp, ?_⟩
    intro x hx
    exact (hden x hx).grows hgrows

end

end Leaves

/-! ### Cells -/

/-- The state after the tag of a cell: its address is in place and in the
back-reference map, and its two halves are on the stack. -/
def enterCell (s : CueState) (dest : Pointer) (rest : List CueStackEntry) (pos cursor : Nat) :
    CueState :=
  { cursor
    memory := update s.memory dest (some (.cell s.free))
    free := s.free + 1
    backrefMap := update s.backrefMap pos (some (.cell s.free))
    stack := .destinationPointer (.head s.free) :: .destinationPointer (.tail s.free) ::
      .backRef pos dest :: rest }

theorem runs_enterCell (hlen : width a ≤ len) (hw : Waits s dest rest pos st)
    (htag : a.testBit pos) (htag' : a.testBit (pos + 1) = false) (hpos : pos + 1 < len) :
    Runs { bits := a, len } s (enterCell s dest rest pos (pos + 2)) := by
  apply runs_turn hw.stack
  simp [cueTurn, hw.cursor, nextBit_of_lt (lt_of_testBit hlen htag), htag, nextBit_of_lt hpos,
    htag', cueCell, CueState.write, CueState.insert, enterCell]

theorem fills_enterCell (hready : Ready s dest) (cursor : Nat) :
    Fills s (enterCell s dest rest pos cursor) dest :=
  fills_of_write hready (Nat.le_succ _) rfl

/-- Memory that is free before the cell is blank after it. -/
theorem enterCell_blank (hready : Ready s dest) (cursor : Nat) {q : Pointer}
    (hq : Fresh s.free q) : (enterCell s dest rest pos cursor).memory q = none := by
  have hne : q ≠ dest := by
    intro heq
    exact hready.placed (heq ▸ hq)
  simp only [enterCell, update_of_ne hne]
  exact hready.fresh q hq

theorem waits_head (hw : Waits s dest rest pos st) (cursor : Nat) :
    Waits (enterCell s dest rest pos cursor) (.head s.free)
      (.destinationPointer (.tail s.free) :: .backRef pos dest :: rest) cursor
      (st.enter pos none) := by
  have hfills : Fills s (enterCell s dest rest pos cursor) dest := fills_enterCell hw.ready cursor
  refine ⟨rfl, rfl, ⟨hfills.fresh, ?_, .inr ?_⟩, ?_, hw.overrun, hw.long⟩
  · exact Nat.not_succ_le_self s.free
  · exact enterCell_blank hw.ready cursor le_rfl
  · have hgrown := hw.mirrors.grows (hfills.grows hw.ready)
    apply hgrown.enter
    nofun

variable {h : Option Noun}

variable {sth : Scan}

/-- With the head read, the loop waits for the tail. -/
theorem waits_tail {s2 : CueState} {cursor mid : Nat} (hw : Waits s dest rest pos st)
    (hread : HasRead (enterCell s dest rest pos cursor) s2 (.head s.free)
      (.destinationPointer (.tail s.free) :: .backRef pos dest :: rest) mid h sth)
    (hover : sth.overrun = false) (hlong : sth.long = false) :
    Waits s2 (.tail s.free) (.backRef pos dest :: rest) mid sth := by
  have hfree : s.free + 1 ≤ s2.free := hread.fills.free_le
  refine ⟨hread.cursor, hread.stack, ⟨hread.fills.fresh, ?_, .inr ?_⟩, hread.mirrors, hover, hlong⟩
  · intro hfresh
    have hle : s2.free ≤ s.free := hfresh
    omega
  · have hnot : ¬ Fresh (s.free + 1) (.tail s.free) := Nat.not_succ_le_self s.free
    rw [hread.fills.frame _ (by simp) hnot]
    exact enterCell_blank hw.ready cursor le_rfl

/-- With both halves read, the loop enters the cell once more and is done with
it. -/
theorem hasRead_cell {s2 s3 : CueState} {cursor mid stop : Nat} {h t : Option Noun}
    {stt : Scan} (hw : Waits s dest rest pos st)
    (hhead : HasRead (enterCell s dest rest pos cursor) s2 (.head s.free)
      (.destinationPointer (.tail s.free) :: .backRef pos dest :: rest) mid h sth)
    (htail : HasRead s2 s3 (.tail s.free) (.backRef pos dest :: rest) stop t stt)
    (hready : Ready s2 (.tail s.free)) : ∃ s4, Runs { bits := a, len } s3 s4 ∧
      HasRead s s4 dest rest stop (cellOf h t) (stt.enter pos (cellOf h t)) := by
  have hfills : Fills s s3 dest :=
    ((fills_enterCell hw.ready cursor).trans hhead.fills le_rfl).trans htail.fills le_rfl
  have hgrows : Grows s2.memory s3.memory := htail.fills.grows hready
  -- the cell's address is where the tag put it
  have hplace : s3.memory dest = some (.cell s.free) := by
    have hnot : ¬ Fresh (s.free + 1) dest := fun hf => hw.ready.placed (hf.mono (Nat.le_succ _))
    have hnot2 : ¬ Fresh s2.free dest := fun hf => hnot (hf.mono hhead.fills.free_le)
    have hne : ∀ q, Fresh s.free q → dest ≠ q := by
      intro q hq heq
      exact hw.ready.placed (heq ▸ hq)
    rw [htail.fills.frame dest (hne _ le_rfl) hnot2,
      hhead.fills.frame dest (hne _ le_rfl) hnot]
    simp [enterCell]
  obtain ⟨v, hv, hvden⟩ := hhead.value
  obtain ⟨w, hw', hwden⟩ := htail.value
  have hden : ∀ x, cellOf h t = some x → Denotes s3.memory (.cell s.free) x := by
    intro x hx
    obtain ⟨y, z, hy, hz, rfl⟩ := cellOf_eq_some hx
    exact .cell (hgrows _ _ (by simp) hv) hw' ((hvden y hy).grows hgrows) (hwden z hz)
  refine ⟨{ s3 with
      backrefMap := update s3.backrefMap pos (some (.cell s.free))
      stack := rest }, ?_, htail.cursor, rfl, ⟨hfills.free_le, hfills.fresh, hfills.frame⟩,
    htail.mirrors.enter pos hden, _, hplace, hden⟩
  apply runs_turn htail.stack
  simp [cueTurn, CueState.insert, hplace]

variable {o : Except Scan (Nat × Option Noun × Scan)}

/-- How the loop ends in the middle of a cell. What the scan of the tail ends
with decides it: if the head stops the loop, its marks are still there at the
end of the tail. -/
theorem stops_in_tail {buffer : BitSlice} {s1 : CueState} {head tail : Pointer}
    {restH restT : List CueStackEntry} {mid : Nat} (hruns : Runs buffer s1 s)
    (hhead : Follows buffer s head restH (.ok (mid, h, sth))) (hmarks : MarksGrow sth (lastScan o))
    (htail : ∀ s2, HasRead s s2 head restH mid h sth → sth.overrun = false → sth.long = false →
      Follows buffer s2 tail restT o) : ((lastScan o).overrun → Stops buffer s1 .panic) ∧
      ((lastScan o).overrun = false → ((lastScan o).long ∨ ∃ st, o = .error st) →
        ∃ e, Stops buffer s1 (.err e)) := by
  cases hover : sth.overrun with
  | true =>
    have hlast := hmarks.overrun hover
    refine ⟨fun _ => hruns.stops (hhead.panics hover), ?_⟩
    intro hnot
    rw [hlast] at hnot
    cases hnot
  | false =>
    cases hlong : sth.long with
    | true =>
      have hlast := (hmarks.long hlong).2
      refine ⟨?_, fun _ _ => hruns.fails (hhead.fails hover (.inl hlong))⟩
      intro hyes
      rw [hlast, hover] at hyes
      cases hyes
    | false =>
      obtain ⟨s2, hruns2, hread⟩ := hhead.reads _ _ _ rfl hover hlong
      have hfollows := htail s2 hread hover hlong
      have hruns2 := hruns.trans hruns2
      exact ⟨fun hyes => hruns2.stops (hfollows.panics hyes),
        fun hnot hends => hruns2.fails (hfollows.fails hnot hends)⟩

/-- A one bit at the very end of the buffer: the tag reads as a cell, and its
head is not there. -/
theorem stops_at_end (hlen : width a ≤ len) (hw : Waits s dest rest pos st)
    (htag : a.testBit pos) (hpos : pos + 1 = len) : ∃ e, Stops { bits := a, len } s (.err e) := by
  have hruns : Runs { bits := a, len } s (enterCell s dest rest (pos - 1) (pos + 1)) := by
    apply runs_turn hw.stack
    simp [cueTurn, hw.cursor, nextBit_of_lt (lt_of_testBit hlen htag), htag,
      nextBit_of_le (by omega : len ≤ pos + 1), cueCell, CueState.write, CueState.insert,
      enterCell]
  refine ⟨bailExit, hruns.stops (stops_err rfl ?_)⟩
  have hnone : field a (pos + 1) = none := field_eq_none_of_width_le (by omega)
  simp [cueTurn, enterCell, nextBit_of_le (by omega : len ≤ pos + 1), cueAtom, rubAtom_eq hlen,
    hnone]

/-- A cell whose head is there has its whole tag inside the buffer. -/
theorem cell_tag_lt (hlen : width a ≤ len) {mid : Nat}
    (hh : Scans a len (pos + 2) (st.enter pos none) (.ok (mid, h, sth))) : pos + 1 < len := by
  by_contra hge
  have hstuck := hh.unique (scans_of_width_le (st.enter pos none) (by omega))
  cases hstuck

/-- The loop of `cue` follows the scan. -/
theorem follows_of_scans (hlen : width a ≤ len)
    (h : Scans a len pos st o) (hw : Waits s dest rest pos st) :
    Follows { bits := a, len } s dest rest o := by
  refine scans_induction (motive := fun pos st o => ∀ s dest rest, Waits s dest rest pos st →
    Follows { bits := a, len } s dest rest o) ?_ h s dest rest hw
  intro pos st o h s dest rest hw
  cases h with
  | atom htag hf => exact follows_atom hlen hw htag hf
  | noAtom htag hf => exact follows_of_err (stops_of_noAtom hlen hw htag hf) hw.overrun
  | backref htag htag' hf hn => exact follows_backref hlen hw htag htag' hf hn
  | unknown htag htag' hf hn => exact follows_unknown hlen hw htag htag' hf hn
  | noBackref htag htag' hf => exact follows_noBackref hlen hw htag htag' hf
  | @noHead sth htag htag' hh =>
    by_cases hpos : pos + 1 < len
    · have hruns := runs_enterCell hlen hw htag htag' hpos
      have hhead := hh.2 _ _ _ (waits_head hw (pos + 2))
      exact ⟨fun hover => hruns.stops (hhead.panics hover),
        fun hover hends => hruns.fails (hhead.fails hover hends), nofun⟩
    · have hlt := lt_of_testBit hlen htag
      obtain ⟨e, he⟩ := stops_at_end hlen hw htag (by omega)
      have hstuck := hh.1.unique (scans_of_width_le (st.enter pos none) (by omega))
      cases hstuck
      exact follows_of_err he hw.overrun
  | @noTail mid h sth stt htag htag' hh ht =>
    have hpos : pos + 1 < len := cell_tag_lt hlen hh.1
    have hruns := runs_enterCell hlen hw htag htag' hpos
    obtain ⟨hpanics, hfails⟩ := stops_in_tail hruns (hh.2 _ _ _ (waits_head hw (pos + 2)))
      (scans_marks ht.1) (fun s2 hread hover hlong => ht.2 _ _ _ (waits_tail hw hread hover hlong))
    exact ⟨hpanics, hfails, nofun⟩
  | @cell mid stop h t sth stt htag htag' hh ht =>
    have hpos : pos + 1 < len := cell_tag_lt hlen hh.1
    have hruns := runs_enterCell hlen hw htag htag' hpos
    have hhead := hh.2 _ _ _ (waits_head hw (pos + 2))
    have hmarks : MarksGrow sth stt := scans_marks ht.1
    obtain ⟨hpanics, hfails⟩ := stops_in_tail hruns hhead (scans_marks ht.1)
      (fun s2 hread hover hlong => ht.2 _ _ _ (waits_tail hw hread hover hlong))
    refine ⟨hpanics, ?_, ?_⟩
    · rintro hover (hlong | ⟨_, ⟨⟩⟩)
      exact hfails hover (.inl hlong)
    intro stop' n st' ho hover hlong
    cases ho
    have hoverT : stt.overrun = false := hover
    have hlongT : stt.long = false := hlong
    -- marks the head had set would still be there
    have hoverH : sth.overrun = false := by
      by_contra hh
      simp [hmarks.overrun (by simpa using hh)] at hoverT
    have hlongH : sth.long = false := by
      by_contra hh
      simp [(hmarks.long (by simpa using hh)).1] at hlongT
    obtain ⟨s2, hruns2, hread2⟩ := hhead.reads _ _ _ rfl hoverH hlongH
    have hwaits := waits_tail hw hread2 hoverH hlongH
    obtain ⟨s3, hruns3, hread3⟩ := (ht.2 _ _ _ hwaits).reads _ _ _ rfl hoverT hlongT
    obtain ⟨s4, hruns4, hread4⟩ := hasRead_cell hw hread2 hread3 hwaits.ready
    exact ⟨s4, hruns.trans (hruns2.trans (hruns3.trans hruns4)), hread4⟩

end Follows

end Nockchain.Serialization
