import Nockchain.Proofs.Serialization.Fields

/-!
# `Nockchain.Proofs.Serialization.Format`: facts about scans

* `scans_induction`: the induction every proof about a scan uses, with one case
  per way a noun is read or not read;
* `scans_total`: every bit string has a scan outcome, which `Evals.unique`
  makes the only one;
* `scans_marks`: marks are only ever added, and nothing after the first long
  back-reference counts as an overrun;
* `scans_started`: a scan moves forward, and touches no entry before the
  position it starts at.
-/

set_option autoImplicit false

namespace Nockchain.Serialization

open Lib Scan

/-- The answer of a cell whose halves were read as `h` and `t`. -/
def cellOf (h t : Option Noun) : Option Noun := h.bind fun x => t.map (Noun.cell x)

@[simp] theorem cellOf_some (h t : Noun) : cellOf (some h) (some t) = some (.cell h t) := rfl

theorem cellOf_eq_some {h t : Option Noun} {n : Noun} (hn : cellOf h t = some n) :
    ∃ x y, h = some x ∧ t = some y ∧ n = .cell x y := by
  cases h with
  | none => cases hn
  | some x =>
    cases t with
    | none => cases hn
    | some y => cases hn; exact ⟨x, y, rfl, rfl, rfl⟩

/-- The ways to read the noun at a position. -/
inductive Reads (a len : Nat) (scans : Nat → Scan → Except Scan (Nat × Option Noun × Scan) → Prop)
    (pos : Nat) (st : Scan) : Except Scan (Nat × Option Noun × Scan) → Prop where
  | atom {f : Field} (htag : a.testBit pos = false) (hf : field a (pos + 1) = some f) :
      Reads a len scans pos st
        (.ok (f.stop, some (.atom f.value), (st.readAtom len f).enter pos (some (.atom f.value))))
  | noAtom (htag : a.testBit pos = false) (hf : field a (pos + 1) = none) :
      Reads a len scans pos st (.error st)
  | backref {f : Field} {n : Option Noun} (htag : a.testBit pos = true)
      (htag' : a.testBit (pos + 1) = true) (hf : field a (pos + 2) = some f)
      (hn : st.started f.value = some n) :
      Reads a len scans pos st (.ok (f.stop, n, (st.readBackref len f).follow n))
  | unknown {f : Field} (htag : a.testBit pos = true) (htag' : a.testBit (pos + 1) = true)
      (hf : field a (pos + 2) = some f) (hn : st.started f.value = none) :
      Reads a len scans pos st (.error (st.readBackref len f))
  | noBackref (htag : a.testBit pos = true) (htag' : a.testBit (pos + 1) = true)
      (hf : field a (pos + 2) = none) : Reads a len scans pos st (.error st)
  | cell {mid stop : Nat} {h t : Option Noun} {sth stt : Scan} (htag : a.testBit pos = true)
      (htag' : a.testBit (pos + 1) = false)
      (hh : scans (pos + 2) (st.enter pos none) (.ok (mid, h, sth)))
      (ht : scans mid sth (.ok (stop, t, stt))) :
      Reads a len scans pos st (.ok (stop, cellOf h t, stt.enter pos (cellOf h t)))
  | noHead {sth : Scan} (htag : a.testBit pos = true) (htag' : a.testBit (pos + 1) = false)
      (hh : scans (pos + 2) (st.enter pos none) (.error sth)) :
      Reads a len scans pos st (.error sth)
  | noTail {mid : Nat} {h : Option Noun} {sth stt : Scan} (htag : a.testBit pos = true)
      (htag' : a.testBit (pos + 1) = false)
      (hh : scans (pos + 2) (st.enter pos none) (.ok (mid, h, sth)))
      (ht : scans mid sth (.error stt)) :
      Reads a len scans pos st (.error stt)

section Scans

variable {a len : Nat}

variable {o : Except Scan (Nat × Option Noun × Scan)} {pos : Nat} {st : Scan}

/-- Weaker answers to the calls give a weaker reading. -/
theorem Reads.imp {P Q : Nat → Scan → Except Scan (Nat × Option Noun × Scan) → Prop}
    (hPQ : ∀ {pos st o}, P pos st o → Q pos st o) (h : Reads a len P pos st o) :
    Reads a len Q pos st o := by
  cases h with
  | atom htag hf => exact .atom htag hf
  | noAtom htag hf => exact .noAtom htag hf
  | backref htag htag' hf hn => exact .backref htag htag' hf hn
  | unknown htag htag' hf hn => exact .unknown htag htag' hf hn
  | noBackref htag htag' hf => exact .noBackref htag htag' hf
  | cell htag htag' hh ht => exact .cell htag htag' (hPQ hh) (hPQ ht)
  | noHead htag htag' hh => exact .noHead htag htag' (hPQ hh)
  | noTail htag htag' hh ht => exact .noTail htag htag' (hPQ hh) (hPQ ht)

/-- One unfolding of a scan reads the noun in one of these ways, whatever the
answers to its calls mean. -/
theorem reads_of_exec {n pos : Nat}
    (h : (scanBody a len (pos, st)).exec (fuelled (scanBody a len) n) = some o) :
    Reads a len (fun pos st o => fuelled (scanBody a len) n (pos, st) = some o) pos st o := by
  simp only [scanBody] at h
  cases htag : a.testBit pos with
  | false =>
    simp only [htag, Bool.false_eq_true, if_false] at h
    cases hf : field a (pos + 1) with
    | none =>
      simp only [hf, Prog.exec, Option.some.injEq] at h
      subst h
      exact .noAtom htag hf
    | some f =>
      simp only [hf, Prog.exec, Option.some.injEq] at h
      subst h
      exact .atom htag hf
  | true =>
    cases htag' : a.testBit (pos + 1) with
    | true =>
      simp only [htag, htag', if_true] at h
      cases hf : field a (pos + 2) with
      | none =>
        simp only [hf, Prog.exec, Option.some.injEq] at h
        subst h
        exact .noBackref htag htag' hf
      | some f =>
        cases hn : st.started f.value with
        | none =>
          simp only [hf, hn, Prog.exec, Option.some.injEq] at h
          subst h
          exact .unknown htag htag' hf hn
        | some n =>
          simp only [hf, hn, Prog.exec, Option.some.injEq] at h
          subst h
          exact .backref htag htag' hf hn
    | false =>
      simp only [htag, htag', Bool.false_eq_true, if_false, if_true, Prog.exec] at h
      cases hh : fuelled (scanBody a len) n (pos + 2, st.enter pos none) with
      | none => rw [hh] at h; cases h
      | some oh =>
        rw [hh] at h
        cases oh with
        | error sth => cases h; exact .noHead htag htag' hh
        | ok rh =>
          obtain ⟨mid, hd, sth⟩ := rh
          simp only [andThen] at h
          cases ht : fuelled (scanBody a len) n (mid, sth) with
          | none => rw [ht] at h; cases h
          | some ot =>
            rw [ht] at h
            cases ot with
            | error stt => cases h; exact .noTail htag htag' hh ht
            | ok rt =>
              cases h
              exact .cell htag htag' hh ht

/-- Induction over a scan. -/
theorem scans_induction {motive : Nat → Scan → Except Scan (Nat × Option Noun × Scan) → Prop}
    (step : ∀ pos st o,
      Reads a len (fun pos st o => Scans a len pos st o ∧ motive pos st o) pos st o →
      motive pos st o) (h : Scans a len pos st o) : motive pos st o := by
  obtain ⟨n, hn⟩ := evals_body_iff.mp h
  clear h
  induction n generalizing pos st o with
  | zero => cases hn
  | succ n ih =>
    apply step
    apply (reads_of_exec hn).imp
    intro pos st o hn
    exact ⟨fuelled_sound hn, ih hn⟩

/-- Each way of reading a noun is a scan. -/
theorem scans_of_reads (h : Reads a len (Scans a len) pos st o) : Scans a len pos st o := by
  cases h with
  | atom htag hf => simp only [Scans, scanBody, htag, hf]; exact .pure _
  | noAtom htag hf => simp only [Scans, scanBody, htag, hf]; exact .fail _
  | backref htag htag' hf hn => simp only [Scans, scanBody, htag, htag', hf, hn]; exact .pure _
  | unknown htag htag' hf hn => simp only [Scans, scanBody, htag, htag', hf, hn]; exact .fail _
  | noBackref htag htag' hf => simp only [Scans, scanBody, htag, htag', hf]; exact .fail _
  | cell htag htag' hh ht =>
    simp only [Scans, scanBody, htag, htag']
    exact .callOk hh (.callOk ht (.pure _))
  | noHead htag htag' hh =>
    simp only [Scans, scanBody, htag, htag']
    exact .callError hh
  | noTail htag htag' hh ht =>
    simp only [Scans, scanBody, htag, htag']
    exact .callOk hh (.callError ht)

/-! ### Positions -/

/-- A scan that reads a noun moves forward, and leaves the entries before it
alone; nothing is entered at or after the position it ends at. -/
theorem scans_started {pos stop : Nat} {st st' : Scan} {n : Option Noun}
    (h : Scans a len pos st (.ok (stop, n, st'))) :
    pos < stop ∧ (∀ p, p < pos → st'.started p = st.started p) ∧
      ∀ p, stop ≤ p → st'.started p = st.started p := by
  generalize ho : (Except.ok (stop, n, st') : Except Scan _) = o at h
  refine scans_induction (motive := fun pos st o => ∀ stop n st', Except.ok (stop, n, st') = o →
    pos < stop ∧ (∀ p, p < pos → st'.started p = st.started p) ∧
      ∀ p, stop ≤ p → st'.started p = st.started p) ?_ h stop n st' ho
  intro pos st o h stop n st' ho
  cases h with
  | atom htag hf =>
    cases ho
    have hlt := field_lt_stop hf
    refine ⟨by omega, ?_, ?_⟩ <;> intro p hp <;> have hne : p ≠ pos := by omega
    · simp [enter, readAtom, hne]
    · simp [enter, readAtom, hne]
  | noAtom htag hf => cases ho
  | backref htag htag' hf hn =>
    cases ho
    have hlt := field_lt_stop hf
    exact ⟨by omega, fun p _ => rfl, fun p _ => rfl⟩
  | unknown htag htag' hf hn | noBackref htag htag' hf => cases ho
  | @cell mid stop h t sth stt htag htag' hh ht =>
    cases ho
    obtain ⟨hlth, hbeforeh, hafterh⟩ := hh.2 _ _ _ rfl
    obtain ⟨hltt, hbeforet, haftert⟩ := ht.2 _ _ _ rfl
    refine ⟨by omega, ?_, ?_⟩ <;> intro p hp <;> have hne : p ≠ pos := by omega
    · have hentered : (st.enter pos none).started p = st.started p := by simp [enter, hne]
      rw [← hentered, ← hbeforeh p (by omega), ← hbeforet p (by omega)]
      simp [enter, hne]
    · have hentered : (st.enter pos none).started p = st.started p := by simp [enter, hne]
      rw [← hentered, ← hafterh p (by omega), ← haftert p (by omega)]
      simp [enter, hne]
  | noHead htag htag' hh | noTail htag htag' hh ht => cases ho

/-! ### Marks -/

/-- The scan state an outcome ends with. -/
def lastScan : Except Scan (Nat × Option Noun × Scan) → Scan
  | .ok (_, _, st) => st
  | .error st => st

/-- Marks stay once set, and overruns stop counting at the first long
back-reference. -/
structure MarksGrow (st st' : Scan) : Prop where
  overrun : st.overrun = true → st'.overrun = true
  long : st.long = true → st'.long = true ∧ st'.overrun = st.overrun
  cyclic : st.cyclic = true → st'.cyclic = true

theorem MarksGrow.refl (st : Scan) : MarksGrow st st :=
  ⟨id, fun h => ⟨h, rfl⟩, id⟩

theorem MarksGrow.trans {st st' st'' : Scan} (h : MarksGrow st st') (h' : MarksGrow st' st'') :
    MarksGrow st st'' := by
  refine ⟨fun ho => h'.overrun (h.overrun ho), ?_, fun hc => h'.cyclic (h.cyclic hc)⟩
  intro hl
  obtain ⟨hl', ho'⟩ := h.long hl
  obtain ⟨hl'', ho''⟩ := h'.long hl'
  exact ⟨hl'', ho''.trans ho'⟩

theorem marksGrow_enter (st : Scan) (pos : Nat) (n : Option Noun) : MarksGrow st (st.enter pos n) :=
  ⟨id, fun h => ⟨h, rfl⟩, id⟩

theorem marksGrow_readAtom (st : Scan) (f : Field) : MarksGrow st (st.readAtom len f) := by
  refine ⟨?_, ?_, id⟩ <;> intro h <;> simp [readAtom, h]

theorem marksGrow_readBackref (st : Scan) (f : Field) : MarksGrow st (st.readBackref len f) := by
  refine ⟨?_, ?_, id⟩ <;> intro h <;> simp [readBackref, h]

theorem marksGrow_follow (st : Scan) (n : Option Noun) : MarksGrow st (st.follow n) := by
  refine ⟨id, fun h => ⟨h, rfl⟩, ?_⟩
  intro h
  simp [follow, h]

theorem scans_marks (h : Scans a len pos st o) : MarksGrow st (lastScan o) := by
  refine scans_induction (motive := fun _ st o => MarksGrow st (lastScan o)) ?_ h
  intro pos st o h
  cases h with
  | atom htag hf => exact (marksGrow_readAtom st _).trans (marksGrow_enter _ _ _)
  | noAtom htag hf => exact .refl st
  | backref htag htag' hf hn => exact (marksGrow_readBackref st _).trans (marksGrow_follow _ _)
  | unknown htag htag' hf hn => exact marksGrow_readBackref st _
  | noBackref htag htag' hf => exact .refl st
  | cell htag htag' hh ht =>
    have hmid : MarksGrow st _ := (marksGrow_enter st pos none).trans hh.2
    exact (hmid.trans ht.2).trans (marksGrow_enter _ _ _)
  | noHead htag htag' hh => exact (marksGrow_enter st pos none).trans hh.2
  | noTail htag htag' hh ht => exact ((marksGrow_enter st pos none).trans hh.2).trans ht.2

/-! ### Every scan ends -/

/-- Past the last one bit there is nothing to read. -/
theorem scans_of_width_le (st : Scan) (h : width a ≤ pos) : Scans a len pos st (.error st) :=
  scans_of_reads (.noAtom (testBit_of_width_le h) (field_eq_none_of_width_le (by omega)))

/-- Every buffer has a meaning from every position, by induction on what is left of it. -/
theorem scans_total (pos : Nat) (st : Scan) : ∃ o, Scans a len pos st o := by
  -- each noun inside starts further on, and past the last one bit no noun starts
  induction hk : width a - pos using Nat.strongRecOn generalizing pos st with
  | ind k ih =>
    by_cases hpos : width a ≤ pos
    · exact ⟨_, scans_of_width_le st hpos⟩
    cases htag : a.testBit pos with
    | false =>
      cases hf : field a (pos + 1) with
      | none => exact ⟨_, scans_of_reads (.noAtom htag hf)⟩
      | some f => exact ⟨_, scans_of_reads (.atom htag hf)⟩
    | true =>
      cases htag' : a.testBit (pos + 1) with
      | true =>
        cases hf : field a (pos + 2) with
        | none => exact ⟨_, scans_of_reads (.noBackref htag htag' hf)⟩
        | some f =>
          cases hn : st.started f.value with
          | none => exact ⟨_, scans_of_reads (.unknown htag htag' hf hn)⟩
          | some n => exact ⟨_, scans_of_reads (.backref htag htag' hf hn)⟩
      | false =>
        obtain ⟨oh, hh⟩ := ih (width a - (pos + 2)) (by omega) (pos + 2) (st.enter pos none) rfl
        cases oh with
        | error sth => exact ⟨_, scans_of_reads (.noHead htag htag' hh)⟩
        | ok rh =>
          obtain ⟨mid, hd, sth⟩ := rh
          have hmid := (scans_started hh).1
          obtain ⟨ot, ht⟩ := ih (width a - mid) (by omega) mid sth rfl
          cases ot with
          | error stt => exact ⟨_, scans_of_reads (.noTail htag htag' hh ht)⟩
          | ok rt => exact ⟨_, scans_of_reads (.cell htag htag' hh ht)⟩

end Scans

end Nockchain.Serialization
