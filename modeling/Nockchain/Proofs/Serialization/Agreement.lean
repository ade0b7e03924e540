import Nockchain.Proofs.Serialization.Decoder

/-!
# `Nockchain.Proofs.Serialization.Agreement`: the jet and `++cue`

`++cue` follows the scan too (`follows_of_scans`), up to the first back-reference to
a cell that is still being read, where it crashes. So the scan of an atom
decides how the two decoders compare, and `agrees_iff` says exactly when they
agree. They do not on the atom of a cell whose head refers back to the cell
itself.
-/

set_option autoImplicit false

namespace Nockchain.Serialization

open Lib Function
open Vm (Error bailExit bailFail)

/-! ### `++cue` follows the scan -/

namespace Hoon

/-- The map of `++cue` has the nouns the scan knows, and no noun has been
started at or after `pos`. -/
structure Knows (m : Decoded) (st : Scan) (pos : Nat) : Prop where
  entries : ∀ p, m p = (st.started p).join
  fresh : ∀ p, pos ≤ p → st.started p = none

variable {m : Decoded} {st : Scan}

/-- Entering a noun at the position it was read from. -/
theorem Knows.enter {pos mid stop : Nat} (h : Knows m st mid)
    (hpos : pos < stop) (hstop : mid ≤ stop) (n : Noun) :
    Knows (update m pos (some n)) (st.enter pos (some n)) stop := by
  constructor
  · intro p
    by_cases hp : p = pos
    · subst hp
      simp [Scan.enter]
    · simp [Scan.enter, update_of_ne hp, h.entries p]
  · intro p hp
    have hne : p ≠ pos := by omega
    simp only [Scan.enter, update_of_ne hne]
    exact h.fresh p (by omega)

variable {pos : Nat}

/-- Starting a cell enters nothing that `++cue` can see. -/
theorem Knows.start (h : Knows m st pos) : Knows m (st.enter pos none) (pos + 2) := by
  constructor
  · intro p
    by_cases hp : p = pos
    · subst hp
      rw [h.entries p, h.fresh p le_rfl]
      simp [Scan.enter]
    · simp [Scan.enter, update_of_ne hp, h.entries p]
  · intro p hp
    have hne : p ≠ pos := by omega
    simp only [Scan.enter, update_of_ne hne]
    exact h.fresh p (by omega)

/-- `++cue` at a position does what the outcome of the scan says. -/
structure Follows (a : Nat) (m : Decoded) (pos : Nat)
    (o : Except Scan (Nat × Option Noun × Scan)) : Prop where
  crashes : ((lastScan o).cyclic = true ∨ ∃ st, o = .error st) →
    Evals (cueBody a) (cueBody a (pos, m)) (.error ())
  reads : ∀ stop n st, o = .ok (stop, n, st) → st.cyclic = false →
    ∃ x m', n = some x ∧ Evals (cueBody a) (cueBody a (pos, m)) (.ok (stop - pos, x, m')) ∧
      Knows m' st stop

variable {a len : Nat}

theorem cut_one_ne_zero {b d : Nat} (h : d.testBit b) : Hoon.cut b 1 d ≠ 0 := by
  rw [Ne, cut_one_eq_zero, h]
  simp

theorem follows_atom (hm : Knows m st pos)
    (hcyclic : st.cyclic = false) (htag : a.testBit pos = false) {f : Field}
    (hf : field a (pos + 1) = some f) : Follows a m pos (.ok (f.stop, some (.atom f.value),
      (st.readAtom len f).enter pos (some (.atom f.value)))) := by
  have hlt := field_lt_stop hf
  constructor
  · rintro (hyes | ⟨_, ⟨⟩⟩)
    have hyes' : st.cyclic := hyes
    rw [hcyclic] at hyes'
    cases hyes'
  · intro stop n st' ho _
    cases ho
    refine ⟨_, update m pos (some (.atom f.value)), rfl, ?_, ?_⟩
    · simp only [cueBody, cut_one_eq_zero.mpr htag, rub_eq, hf, if_true, Option.map_some]
      have hread : f.stop - (pos + 1) + 1 = f.stop - pos := by omega
      rw [hread]
      exact .pure _
    · have hread : Knows m (st.readAtom len f) pos := ⟨hm.entries, hm.fresh⟩
      exact hread.enter (by omega) (by omega) _

/-- A back-reference to a noun that is complete: `++cue` has it under the same position. -/
theorem follows_backref (hm : Knows m st pos) (hcyclic : st.cyclic = false) (htag : a.testBit pos)
    (htag' : a.testBit (pos + 1)) {f : Field} {n : Option Noun}
    (hf : field a (pos + 2) = some f) (hn : st.started f.value = some n) :
    Follows a m pos (.ok (f.stop, n, (st.readBackref len f).follow n)) := by
  have hlt := field_lt_stop hf
  have hbody : cueBody a (pos, m) = (m f.value).elim (.fail ()) fun x =>
      .pure (2 + (f.stop - (pos + 2)), x, m) := by
    cases hvalue : m f.value <;> simp [cueBody, cut_one_ne_zero htag,
      cut_one_ne_zero htag', rub_eq, Nat.add_comm 2 pos, hf, hvalue]
  have hentry : m f.value = n := by
    rw [hm.entries, hn]
    rfl
  have hmark : ((st.readBackref len f).follow n).cyclic = n.isNone := by
    simp [Scan.follow, Scan.readBackref, hcyclic]
  rw [hentry] at hbody
  cases n with
  | none =>
    constructor
    · intro _
      rw [hbody]
      exact .fail _
    · intro stop n st' ho hnot
      cases ho
      rw [hmark] at hnot
      cases hnot
  | some x =>
    constructor
    · rintro (hyes | ⟨_, ⟨⟩⟩)
      rw [lastScan, hmark] at hyes
      cases hyes
    intro stop n st' ho _
    cases ho
    refine ⟨x, m, rfl, ?_, ?_⟩
    · have hread : 2 + (f.stop - (pos + 2)) = f.stop - pos := by omega
      rw [hbody, hread]
      exact .pure _
    · exact ⟨hm.entries, fun p hp => hm.fresh p (by omega)⟩

/-- The unfolding of `++cue` at a cell. -/
theorem cueBody_cell (htag : a.testBit pos) (htag' : a.testBit (pos + 1) = false) :
    cueBody a (pos, m) = .call (pos + 2, m) fun u => .call (u.1 + (pos + 2), u.2.2) fun v =>
      .pure (2 + (u.1 + v.1), .cell u.2.1 v.2.1,
        update v.2.2 pos (some (.cell u.2.1 v.2.1))) := by
  simp [cueBody, cut_one_ne_zero htag, cut_one_eq_zero.mpr htag', Nat.add_comm 2 pos]

/-- `++cue` follows the scan. -/
theorem follows_of_scans {o : Except Scan (Nat × Option Noun × Scan)} (h : Scans a len pos st o)
    (hm : Knows m st pos) (hcyclic : st.cyclic = false) : Follows a m pos o := by
  refine scans_induction (motive := fun pos st o => ∀ m, Knows m st pos → st.cyclic = false →
    Follows a m pos o) ?_ h m hm hcyclic
  intro pos st o h m hm hcyclic
  -- a scan that gets stuck is followed by a crash
  have stuck : ∀ st', Evals (cueBody a) (cueBody a (pos, m)) (.error ()) →
      Follows a m pos (.error st') := by
    intro st' hcrash
    exact ⟨fun _ => hcrash, by rintro _ _ _ ⟨⟩⟩
  cases h with
  | atom htag hf => exact follows_atom hm hcyclic htag hf
  | noAtom htag hf =>
    apply stuck
    simp only [cueBody, cut_one_eq_zero.mpr htag, rub_eq, hf, if_true, Option.map_none]
    exact .fail _
  | backref htag htag' hf hn => exact follows_backref hm hcyclic htag htag' hf hn
  | @unknown f htag htag' hf hn =>
    apply stuck
    have hentry : m f.value = none := by
      rw [hm.entries, hn]
      rfl
    simp only [cueBody, cut_one_ne_zero htag, cut_one_ne_zero htag', if_false, rub_eq,
      Nat.add_comm 2 pos, hf, Option.map_some, hentry]
    exact .fail _
  | noBackref htag htag' hf =>
    apply stuck
    simp only [cueBody, cut_one_ne_zero htag, cut_one_ne_zero htag', if_false, rub_eq,
      Nat.add_comm 2 pos, hf, Option.map_none]
    exact .fail _
  | noHead htag htag' hh =>
    apply stuck
    rw [cueBody_cell htag htag']
    exact .callError ((hh.2 m hm.start hcyclic).crashes (.inr ⟨_, rfl⟩))
  | @noTail mid h sth stt htag htag' hh ht =>
    apply stuck
    rw [cueBody_cell htag htag']
    have hhead := hh.2 m hm.start hcyclic
    cases hcyc : sth.cyclic with
    | true => exact .callError (hhead.crashes (.inl hcyc))
    | false =>
      obtain ⟨x, m', -, heval, hknows⟩ := hhead.reads _ _ _ rfl hcyc
      have hmid := (scans_started hh.1).1
      refine .callOk heval (.callError ?_)
      rw [Nat.sub_add_cancel (by omega)]
      exact (ht.2 m' hknows hcyc).crashes (.inr ⟨_, rfl⟩)
  | @cell mid stop h t sth stt htag htag' hh ht =>
    have hmid := (scans_started hh.1).1
    have hstop := (scans_started ht.1).1
    have hhead := hh.2 m hm.start hcyclic
    have hmarks : MarksGrow sth stt := scans_marks ht.1
    constructor
    · rintro (hyes | ⟨_, ⟨⟩⟩)
      have hyes' : stt.cyclic := hyes
      rw [cueBody_cell htag htag']
      cases hcyc : sth.cyclic with
      | true => exact .callError (hhead.crashes (.inl hcyc))
      | false =>
        obtain ⟨x, m', -, heval, hknows⟩ := hhead.reads _ _ _ rfl hcyc
        refine .callOk heval (.callError ?_)
        rw [Nat.sub_add_cancel (by omega)]
        exact (ht.2 m' hknows hcyc).crashes (.inl hyes')
    · intro stop' n st' ho hnot
      cases ho
      have hcycT : stt.cyclic = false := hnot
      have hcycH : sth.cyclic = false := by
        cases hcyc : sth.cyclic with
        | false => rfl
        | true => rw [hmarks.cyclic hcyc] at hcycT; cases hcycT
      obtain ⟨x, mh, rfl, hevalH, hknowsH⟩ := hhead.reads _ _ _ rfl hcycH
      obtain ⟨y, mt, rfl, hevalT, hknowsT⟩ := (ht.2 mh hknowsH hcycH).reads _ _ _ rfl hcycT
      refine ⟨.cell x y, update mt pos (some (.cell x y)), rfl, ?_,
        hknowsT.enter (by omega) le_rfl _⟩
      rw [cueBody_cell htag htag']
      refine .callOk hevalH (.callOk (r := (stop - mid, y, mt)) ?_ ?_)
      · rwa [Nat.sub_add_cancel (by omega)]
      · have hread : 2 + (mid - (pos + 2) + (stop - mid)) = stop - pos := by omega
        rw [hread]
        exact .pure _

end Hoon

/-! ### The two decoders -/

/-- The jet agrees with `++cue` on an atom: it returns `Ok` with exactly the
noun `++cue` produces, and `Err` exactly if `++cue` crashes. -/
def Agrees (a : Nat) : Prop :=
  (∀ n, CueOk a n ↔ Hoon.CueOk a n) ∧ (CueErr a ↔ Hoon.CueCrashes a)

theorem width_le_asBitslice (a : Nat) : width a ≤ (asBitslice a).len := by
  simp only [asBitslice]
  omega

/-- The loop starts out waiting for the noun at position `0`. -/
theorem waits_start : Waits .start .result [] 0 .start := by
  refine ⟨rfl, rfl, ⟨?_, id, .inl rfl⟩, ⟨fun _ _ => rfl, ?_⟩, rfl, rfl⟩
  · intro q hq
    cases q with
    | result => cases hq
    | head address | tail address => rfl
  · intro p n hp
    cases hp

/-- How `cue` ends, from the scan of its atom. -/
theorem cue_of_scans {a : Nat} {o : Except Scan (Nat × Option Noun × Scan)}
    (h : Scans a (asBitslice a).len 0 .start o) :
    ((lastScan o).overrun → Stops (asBitslice a) .start .panic) ∧
      ((lastScan o).overrun = false → ((lastScan o).long ∨ ∃ st, o = .error st) →
        ∃ e, Stops (asBitslice a) .start (.err e)) ∧
      ∀ stop n st, o = .ok (stop, n, st) → st.overrun = false → st.long = false →
        ∃ memory v, Stops (asBitslice a) .start (.ok (memory, some v)) ∧
          ∀ x, n = some x → Denotes memory v x := by
  have hfollows : Serialization.Follows (asBitslice a) .start .result [] o :=
    Serialization.follows_of_scans (width_le_asBitslice a) h waits_start
  refine ⟨hfollows.panics, hfollows.fails, ?_⟩
  intro stop n st ho hover hlong
  obtain ⟨s, hruns, hread⟩ := hfollows.reads stop n st ho hover hlong
  obtain ⟨v, hv, hden⟩ := hread.value
  refine ⟨s.memory, v, hruns.stops ⟨1, ?_⟩, hden⟩
  simp [cueLoop, hread.stack, hv]

/-- The map of `++cue` starts out empty. -/
theorem Hoon.knows_start : Hoon.Knows (fun _ => none) .start 0 :=
  ⟨fun _ => rfl, fun _ _ => rfl⟩

section Outcomes

variable {a : Nat}

theorem cue_of_panic (h : Stops (asBitslice a) .start .panic) : ¬ CueErr a ∧ ∀ n, ¬ CueOk a n := by
  constructor
  · rintro ⟨turns, e, he⟩
    cases h.unique ⟨turns, he⟩
  · rintro n ⟨turns, memory, v, hv, -⟩
    cases h.unique ⟨turns, hv⟩

theorem cue_of_err {e : Error} (h : Stops (asBitslice a) .start (.err e)) :
    CueErr a ∧ ∀ n, ¬ CueOk a n := by
  constructor
  · obtain ⟨turns, hturns⟩ := h
    exact ⟨turns, e, hturns⟩
  · rintro n ⟨turns, memory, v, hv, -⟩
    cases h.unique ⟨turns, hv⟩

theorem cue_of_ok {memory : Memory} {v : Value}
    (h : Stops (asBitslice a) .start (.ok (memory, some v))) :
    ¬ CueErr a ∧ ∀ n, CueOk a n ↔ Denotes memory v n := by
  constructor
  · rintro ⟨turns, e, he⟩
    cases h.unique ⟨turns, he⟩
  intro n
  constructor
  · rintro ⟨turns, memory', v', hv, hden⟩
    cases h.unique ⟨turns, hv⟩
    exact hden
  · intro hden
    obtain ⟨turns, hturns⟩ := h
    exact ⟨turns, memory, v, hturns, hden⟩

theorem Hoon.cue_of_crash (h : Hoon.CueCrashes a) : ∀ n, ¬ Hoon.CueOk a n := by
  rintro n ⟨p, r, hok⟩
  have hsame := Evals.unique h hok
  cases hsame

theorem Hoon.cue_of_ok {p : Nat} {x : Noun} {r : Hoon.Decoded}
    (h : Hoon.CueEvals a (.ok (p, x, r))) : ¬ Hoon.CueCrashes a ∧ ∀ n, Hoon.CueOk a n ↔ n = x := by
  constructor
  · intro hcrash
    have hsame := Evals.unique h hcrash
    cases hsame
  intro n
  constructor
  · rintro ⟨p', r', hok⟩
    have hsame := Evals.unique h hok
    cases hsame
    rfl
  · rintro rfl
    exact ⟨p, r, h⟩

/-- `++cue` is never undecided. -/
theorem Hoon.cue_total : Hoon.CueCrashes a ∨ ∃ n, Hoon.CueOk a n := by
  obtain ⟨o, ho⟩ : ∃ o, Scans a 0 0 .start o := scans_total 0 .start
  have hfollows := Hoon.follows_of_scans ho Hoon.knows_start rfl
  cases hcyc : (lastScan o).cyclic with
  | true => exact .inl (hfollows.crashes (.inl hcyc))
  | false =>
    cases o with
    | error st => exact .inl (hfollows.crashes (.inr ⟨st, rfl⟩))
    | ok r =>
      obtain ⟨x, m, -, heval, -⟩ := hfollows.reads _ _ _ rfl hcyc
      exact .inr ⟨x, _, _, heval⟩

theorem agrees_of_crash {e : Error} (h : Stops (asBitslice a) .start (.err e))
    (hcrash : Hoon.CueCrashes a) : Agrees a := by
  obtain ⟨hErr, hnoOk⟩ := cue_of_err h
  exact ⟨fun n => iff_of_false (hnoOk n) (Hoon.cue_of_crash hcrash n), iff_of_true hErr hcrash⟩

end Outcomes

/-- The jet agrees with `++cue` on an atom exactly if the atom's scan is
harmless. -/
theorem agrees_iff (a : Nat) : Agrees a ↔ Plain a (asBitslice a).len := by
  obtain ⟨o, ho⟩ : ∃ o, Scans a (asBitslice a).len 0 .start o := scans_total 0 .start
  have hplain : Plain a (asBitslice a).len ↔ Harmless o := by
    constructor
    · rintro ⟨o', ho', hharmless⟩
      rwa [ho.unique ho']
    · exact fun h => ⟨o, ho, h⟩
  rw [hplain]
  obtain ⟨hpanics, hfails, hreads⟩ := cue_of_scans ho
  have hhoon := Hoon.follows_of_scans ho Hoon.knows_start rfl
  cases hover : (lastScan o).overrun with
  | true =>
    -- the jet panics, which is neither of the two allowed endings
    obtain ⟨hnoErr, hnoOk⟩ := cue_of_panic (hpanics hover)
    have hnot : ¬ Harmless o := by
      cases o with
      | error st => intro h; rw [lastScan] at hover; rw [Harmless, hover] at h; cases h
      | ok r => rintro ⟨h, -⟩; rw [lastScan] at hover; rw [hover] at h; cases h
    refine iff_of_false ?_ hnot
    rintro ⟨hok, herr⟩
    rcases Hoon.cue_total (a := a) with hcrash | ⟨n, hn⟩
    · exact hnoErr (herr.mpr hcrash)
    · exact hnoOk n ((hok n).mpr hn)
  | false =>
    cases o with
    | error st =>
      -- both are stuck
      obtain ⟨e, he⟩ := hfails hover (.inr ⟨st, rfl⟩)
      exact iff_of_true (agrees_of_crash he (hhoon.crashes (.inr ⟨st, rfl⟩))) hover
    | ok r =>
      obtain ⟨stop, n, st⟩ := r
      have hover' : st.overrun = false := hover
      have hharmless : Harmless (.ok (stop, n, st)) ↔ st.long = st.cyclic := by
        simp [Harmless, hover']
      rw [hharmless]
      cases hlong : st.long with
      | true =>
        obtain ⟨e, he⟩ := hfails hover (.inl hlong)
        cases hcyc : st.cyclic with
        | true =>
          -- both give up, each at its own back-reference
          exact iff_of_true (agrees_of_crash he (hhoon.crashes (.inl hcyc))) rfl
        | false =>
          obtain ⟨x, m, -, heval, -⟩ := hhoon.reads _ _ _ rfl hcyc
          refine iff_of_false ?_ (by simp)
          rintro ⟨-, herr⟩
          exact (Hoon.cue_of_ok heval).1 (herr.mp (cue_of_err he).1)
      | false =>
        obtain ⟨memory, v, hstops, hden⟩ := hreads _ _ _ rfl hover' hlong
        obtain ⟨hnoErr, hOk⟩ := cue_of_ok hstops
        cases hcyc : st.cyclic with
        | true =>
          -- the jet returns what `++cue` refuses
          have hcrash : Hoon.CueCrashes a := hhoon.crashes (.inl hcyc)
          refine iff_of_false ?_ (by simp)
          rintro ⟨-, herr⟩
          exact hnoErr (herr.mpr hcrash)
        | false =>
          obtain ⟨x, m, rfl, heval, -⟩ := hhoon.reads _ _ _ rfl hcyc
          obtain ⟨hnoCrash, hhoonOk⟩ := Hoon.cue_of_ok heval
          refine iff_of_true ⟨?_, iff_of_false hnoErr hnoCrash⟩ rfl
          intro n
          rw [hOk n, hhoonOk n]
          constructor
          · exact fun h => h.unique (hden x rfl)
          · rintro rfl
            exact hden n rfl

/-- The atom `0b1011101`: a cell whose head is a back-reference to position `0`,
the cell itself, and whose tail is `0`. `++cue` crashes on it; the jet returns a
cell that is its own head. -/
theorem cue_selfReference : ¬ Agrees 93 ∧ Hoon.CueCrashes 93 ∧
      ∃ turns memory, cue turns 93 = some (.ok (memory, some (.cell 0))) ∧
        memory (.head 0) = some (.cell 0) := by
  have hcrash : Hoon.CueCrashes 93 :=
    fuelled_sound (show fuelled (Hoon.cueBody 93) 2 (0, fun _ => none) = some (.error ()) from rfl)
  obtain ⟨memory, hcue, hhead⟩ : ∃ memory, cue 5 93 = some (.ok (memory, some (.cell 0))) ∧
      memory (.head 0) = some (.cell 0) := ⟨_, rfl, rfl⟩
  refine ⟨?_, hcrash, 5, memory, hcue, hhead⟩
  rintro ⟨-, herr⟩
  exact (cue_of_ok ⟨5, hcue⟩).1 (herr.mpr hcrash)

end Nockchain.Serialization
