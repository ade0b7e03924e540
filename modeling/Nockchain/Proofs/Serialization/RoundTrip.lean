import Nockchain.Proofs.Serialization.Agreement

/-!
# `Nockchain.Proofs.Serialization.RoundTrip`: `cue` undoes `jam`

What `jam` has written never changes: the buffer is doubled without touching the
bits below the cursor, and nothing is ever written below it. So whatever one
step of `jam` writes can be read back from the finished atom, and the proof goes
noun by noun (`jam_noun`): the bits written for a noun scan as that noun, with
the back-references of `jam` and of the scan in lock step. `cue_jam` then follows
because `cue` follows scans, and `hoonCue_jam` because `++cue` does.
-/

set_option autoImplicit false

namespace Nockchain.Serialization

open Lib Scan Function Nat

/-! ### The buffer -/

/-- Nothing is written at or past the cursor, and the cursor is inside the
buffer. -/
structure Tidy (s : JamState) : Prop where
  clear : s.slice < 2 ^ s.cursor
  inside : s.cursor ≤ s.len
  nonempty : 0 < s.size

variable {s : JamState}

/-- Doubling the buffer changes its size and nothing else. -/
theorem doubleAtomSize_eq (h : Tidy s) : doubleAtomSize s = { s with size := s.size + s.size } := by
  have hslice : splice 0 0 s.cursor (cut s.slice 0 s.cursor) = s.slice := by
    apply eq_of_testBit_eq
    intro j
    rw [testBit_splice, testBit_cut]
    by_cases hj : j < s.cursor
    · simp [hj]
    · have hzero : s.slice.testBit j = false := testBit_of_width_le
        ((width_le_iff.mpr h.clear).trans (by omega))
      simp [hj, hzero]
  simp [doubleAtomSize, hslice]

variable {atom size a pos len : Nat}

theorem Tidy.grow (h : Tidy s) (hsize : s.size ≤ size) : Tidy { s with size } := by
  have hinside := h.inside
  have hnonempty := h.nonempty
  refine ⟨h.clear, ?_, ?_⟩
  · simp only [JamState.len] at hinside ⊢
    omega
  · exact hnonempty.trans_le hsize

/-- One doubling adds at least a word. -/
theorem Tidy.double {need turns : Nat} (h : Tidy s) (hturns : need ≤ s.len + (turns + 1)) :
    Tidy { s with size := s.size + s.size } ∧ need ≤ 64 * (s.size + s.size) + turns := by
  have hnonempty := h.nonempty
  simp only [JamState.len] at hturns
  exact ⟨h.grow (by omega), by omega⟩

/-- Reserving room ends, with the room there. -/
theorem reserve_eq (n turns : Nat) (h : Tidy s) (hturns : s.cursor + n ≤ s.len + turns) :
    ∃ size, reserve n (turns + 1) s = some { s with size } ∧ s.size ≤ size ∧
      s.cursor + n ≤ 64 * size := by
  induction turns generalizing s with
  | zero =>
    have hfits : ¬ s.cursor + n > s.len := by omega
    exact ⟨s.size, by simp [reserve, hfits], le_refl _, hturns⟩
  | succ turns ih =>
    by_cases hfits : s.cursor + n > s.len
    · obtain ⟨hgrown, hroom⟩ := h.double hturns
      obtain ⟨size, hres, hsize, hin⟩ := ih hgrown hroom
      have hle : s.size + s.size ≤ size := hsize
      refine ⟨size, ?_, by omega, hin⟩
      rw [reserve, if_pos hfits, doubleAtomSize_eq h, hres]
    · exact ⟨s.size, by simp [reserve, hfits], Nat.le_refl _, Nat.le_of_not_lt hfits⟩

/-! ### Writing a length-prefixed number -/

/-- The field that `mat` writes for an atom at a position. -/
def matField (atom pos : Nat) : Field :=
  { zeros := met0 (met0 atom), size := met0 atom, value := atom,
    start := if atom = 0 then pos + 1 else pos + 2 * met0 (met0 atom) }

@[simp] theorem matField_value (atom pos : Nat) : (matField atom pos).value = atom := rfl

@[simp] theorem matField_stop (atom pos : Nat) : (matField atom pos).stop = pos + matSize atom := by
  by_cases h : atom = 0
  · simp [matField, Field.stop, matSize, h, met0]
  · simp [matField, Field.stop, matSize, h, add_assoc]

theorem matSize_pos (atom : Nat) : 0 < matSize atom := by
  by_cases h : atom = 0
  · simp [matSize, h]
  · have hpos : 0 < met0 atom := width_pos h
    simp only [matSize, h, if_false]
    omega

/-- What one write adds to the buffer: `len` bits, of which the last is a one,
that read as a field at the old cursor. -/
structure WritesField (s s' : JamState) (atom : Nat) : Prop where
  cursor : s'.cursor = s.cursor + matSize atom
  tidy : Tidy s'
  below : AgreeBelow s.cursor s'.slice s.slice
  last : s'.slice.testBit (s'.cursor - 1) = true
  reads : ∀ a, AgreeBelow s'.cursor a s'.slice → field a s.cursor = some (matField atom s.cursor)

/-- A field with at least one zero, from its parts. -/
theorem field_of_cuts {c b v : Nat} (hc : 0 < c) (hzeros : cut a pos c = 0)
    (hone : cut a (pos + c) 1 = 1) (hsize : cut a (pos + c + 1) (c - 1) + 2 ^ (c - 1) = b)
    (hvalue : cut a (pos + 2 * c) b = v) :
    field a pos = some { zeros := c, size := b, value := v, start := pos + 2 * c } := by
  obtain ⟨k, rfl⟩ : ∃ k, c = k + 1 := ⟨c - 1, by omega⟩
  have hbit : a.testBit (pos + (k + 1)) := by
    simpa [hone] using testBit_cut a (pos + (k + 1)) 1 0
  have hwidth : pos + (k + 1) < width a := by
    by_contra hge
    rw [testBit_of_width_le (by omega)] at hbit
    cases hbit
  have hfirst : firstOne (a >>> pos) (width a - pos) = some (k + 1) := by
    rw [firstOne_eq_some]
    simp only [testBit_shiftRight]
    refine ⟨by omega, hbit, fun j hj => ?_⟩
    simpa [hzeros, hj] using testBit_cut a pos (k + 1) j
  have hsize' : 2 ^ k + cut a (pos + k + 2) k = b := by
    rwa [add_comm]
  simp [field, hfirst, hsize', hvalue]

theorem mat_zero (h : Tidy s) (hfits : s.cursor + 1 ≤ s.len) :
    ∃ s', mat s 0 = some s' ∧ WritesField s s' 0 := by
  have hnot : ¬ s.cursor + 1 > s.len := by omega
  refine ⟨{ s.set s.cursor true with cursor := s.cursor + 1 }, ?_, ?_⟩
  · simp [mat, met0, hnot]
  have hbit : (splice s.slice s.cursor 1 1).testBit s.cursor := by
    simp [testBit_splice]
  refine ⟨rfl, ⟨splice_lt h.clear, hfits, h.nonempty⟩, agreeBelow_splice le_rfl, hbit, ?_⟩
  intro a ha
  have hone : a.testBit s.cursor := (ha s.cursor (lt_succ_self _)).trans hbit
  have hwidth : s.cursor < width a := by
    by_contra hge
    rw [testBit_of_width_le (by omega)] at hone
    cases hone
  have hfirst : firstOne (a >>> s.cursor) (width a - s.cursor) = some 0 := by
    rw [firstOne_eq_some]
    exact ⟨by omega, hone, by simp⟩
  simp [field, hfirst, matField, met0]

/-- `mat` of a number other than zero writes the field of it, if the buffer has room. -/
theorem mat_pos (hatom : atom ≠ 0) (h : Tidy s) (hfits : s.cursor + matSize atom ≤ s.len) :
    ∃ s', mat s atom = some s' ∧ WritesField s s' atom := by
  obtain ⟨b, hb⟩ : ∃ b, b = met0 atom := ⟨_, rfl⟩
  obtain ⟨c, hc⟩ : ∃ c, c = met0 b := ⟨_, rfl⟩
  have hbpos : b ≠ 0 := hb ▸ (width_pos hatom).ne'
  have hcpos : 0 < c := hc ▸ width_pos hbpos
  have hsize : matSize atom = 2 * c + b := by
    simp [matSize, hatom, ← hb, ← hc]
  have hnot : ¬ s.cursor + c + c + b > s.len := by omega
  -- the four writes, innermost first
  obtain ⟨zeros, hzeros, hclear, hbelow, hcut⟩ := exists_splice h.clear c 0
  obtain ⟨unary, hunary, hclear1, hbelow1, hcut1⟩ := exists_splice hclear 1 1
  obtain ⟨sized, hsized, hclear2, hbelow2, hcut2⟩ := exists_splice hclear1 (c - 1) b
  rw [show s.cursor + c + 1 + (c - 1) = s.cursor + c + c by omega] at hclear2
  obtain ⟨value, hvalue, hclear3, hbelow3, hcut3⟩ := exists_splice hclear2 b atom
  rw [mod_eq_of_lt (hb ▸ lt_two_pow_width atom)] at hcut3
  have hmat : mat s atom = some { s with slice := value, cursor := s.cursor + c + c + b } := by
    simp [mat, ← hb, hbpos, ← hc, hnot, hzeros, hunary, hsized, hvalue]
  -- what agrees with the last write agrees with the earlier ones as far as they go
  have hagree : ∀ a, AgreeBelow (s.cursor + c + c + b) a value →
      AgreeBelow (s.cursor + c + c) a sized ∧ AgreeBelow (s.cursor + c + 1) a unary ∧
        AgreeBelow (s.cursor + c) a zeros := by
    intro a ha
    have ha2 := (ha.mono (by omega)).trans hbelow3
    have ha1 := (ha2.mono (by omega)).trans hbelow2
    exact ⟨ha2, ha1, (ha1.mono (by omega)).trans hbelow1⟩
  refine ⟨_, hmat, ?_, ⟨hclear3, ?_, h.nonempty⟩, ?_, ?_, ?_⟩
  · show s.cursor + c + c + b = _
    omega
  · simp only [JamState.len] at hfits ⊢
    omega
  · exact ((hagree value (.refl _ _)).2.2.mono (by omega)).trans hbelow
  · -- the last bit is the highest one of the atom
    have hbit : (cut value (s.cursor + c + c) b).testBit (b - 1) := by
      rw [hcut3, hb]
      exact testBit_width_pred hatom
    rw [testBit_cut, show s.cursor + c + c + (b - 1) = s.cursor + c + c + b - 1 by omega] at hbit
    exact (Bool.and_eq_true_iff.mp hbit).2
  · intro a ha
    obtain ⟨ha2, ha1, ha0⟩ := hagree a ha
    rw [matField, if_neg hatom, ← hb, ← hc]
    apply field_of_cuts hcpos
    · rw [cut_of_agreeBelow ha0 le_rfl, hcut, zero_mod]
    · exact (cut_of_agreeBelow ha1 le_rfl).trans hcut1
    · rw [cut_of_agreeBelow ha2 (by omega), hcut2, hc]
      exact mod_add_two_pow_width hbpos
    · rw [two_mul, ← add_assoc, cut_of_agreeBelow ha le_rfl, hcut3]

theorem mat_of_fits (atom : Nat) (h : Tidy s) (hfits : s.cursor + matSize atom ≤ s.len) :
    ∃ s', mat s atom = some s' ∧ WritesField s s' atom := by
  by_cases hatom : atom = 0
  · subst hatom
    exact mat_zero h hfits
  · exact mat_pos hatom h hfits

/-- `mat` refuses exactly what does not fit. -/
theorem mat_of_not_fits (atom : Nat) (hfits : ¬ s.cursor + matSize atom ≤ s.len) :
    mat s atom = none := by
  by_cases hatom : atom = 0
  · subst hatom
    have hgt : s.cursor + 1 > s.len := Nat.lt_of_not_le hfits
    simp [mat, met0, hgt]
  have hb : met0 atom ≠ 0 := by
    have := width_pos hatom
    rw [met0]
    omega
  simp only [matSize, hatom, if_false] at hfits
  have hgt : s.cursor + met0 (met0 atom) + met0 (met0 atom) + met0 atom > s.len := by omega
  simp [mat, hb, hgt]

/-- Doubling the buffer does not show in what is written. -/
theorem WritesField.of_size {s s' : JamState}
    (h : WritesField { s with size } s' atom) : WritesField s s' atom :=
  ⟨h.cursor, h.tidy, h.below, h.last, h.reads⟩

theorem matLoop_eq (atom turns : Nat) (h : Tidy s)
    (hturns : s.cursor + matSize atom ≤ s.len + turns) :
    ∃ s', matLoop atom (turns + 1) s = some s' ∧ WritesField s s' atom := by
  induction turns generalizing s with
  | zero =>
    obtain ⟨s', hmat, hwrites⟩ := mat_of_fits atom h hturns
    exact ⟨s', by simp [matLoop, hmat], hwrites⟩
  | succ turns ih =>
    by_cases hfits : s.cursor + matSize atom ≤ s.len
    · obtain ⟨s', hmat, hwrites⟩ := mat_of_fits atom h hfits
      exact ⟨s', by simp [matLoop, hmat], hwrites⟩
    obtain ⟨hgrown, hroom⟩ := h.double hturns
    obtain ⟨s', hloop, hwrites⟩ := ih hgrown hroom
    refine ⟨s', ?_, hwrites.of_size⟩
    rw [matLoop, mat_of_not_fits atom hfits]
    simp [doubleAtomSize_eq h, hloop]

/-! ### Tags -/

/-- The bits from the old cursor on are new; those before it are as they were. -/
structure Writes (s s' : JamState) : Prop where
  lt : s.cursor < s'.cursor
  tidy : Tidy s'
  below : AgreeBelow s.cursor s'.slice s.slice

theorem Writes.trans {s s' s'' : JamState} (h : Writes s s') (h' : Writes s' s'') : Writes s s'' :=
  ⟨lt_trans h.lt h'.lt, h'.tidy,
    (h'.below.mono (le_of_lt h.lt)).trans h.below⟩

theorem WritesField.writes {s s' : JamState} (h : WritesField s s' atom) : Writes s s' := by
  have hpos := matSize_pos atom
  have hcursor := h.cursor
  exact ⟨by omega, h.tidy, h.below⟩

/-- The tag of one bit. -/
def tag1 (s : JamState) (size : Nat) (t : Bool) : JamState :=
  { cursor := s.cursor + 1, size, slice := splice s.slice s.cursor 1 t.toNat }

/-- The tag of two bits. -/
def tag2 (s : JamState) (size : Nat) (t u : Bool) : JamState :=
  { cursor := s.cursor + 2, size
    slice := splice (splice s.slice s.cursor 1 t.toNat) (s.cursor + 1) 1 u.toNat }

theorem testBit_splice_one (x i : Nat) (t : Bool) : (splice x i 1 t.toNat).testBit i = t := by
  rw [testBit_splice, if_neg (Nat.lt_irrefl i), if_pos (Nat.lt_succ_self i), Nat.sub_self]
  cases t <;> rfl

theorem writes_tag1 (h : Tidy s) (t : Bool) (hsize : s.cursor + 1 ≤ 64 * size) :
    Writes s (tag1 s size t) ∧ ∀ a, AgreeBelow (s.cursor + 1) a (tag1 s size t).slice →
      a.testBit s.cursor = t := by
  refine ⟨⟨lt_succ_self _, ⟨splice_lt h.clear, hsize, ?_⟩,
    agreeBelow_splice le_rfl⟩, ?_⟩
  · show 0 < size
    omega
  · intro a ha
    exact (ha _ (lt_succ_self _)).trans (testBit_splice_one _ _ t)

theorem writes_tag2 (h : Tidy s) (t u : Bool) (hsize : s.cursor + 2 ≤ 64 * size) :
    Writes s (tag2 s size t u) ∧ ∀ a, AgreeBelow (s.cursor + 2) a (tag2 s size t u).slice →
      a.testBit s.cursor = t ∧ a.testBit (s.cursor + 1) = u := by
  obtain ⟨hfirst, hbit⟩ := writes_tag1 h t (le_of_succ_le hsize)
  obtain ⟨hsecond, hbit'⟩ := writes_tag1 hfirst.tidy u hsize
  refine ⟨hfirst.trans hsecond, ?_⟩
  intro a ha
  refine ⟨hbit a ?_, hbit' a ha⟩
  exact (ha.mono (le_succ _)).trans (hsecond.below.mono le_rfl)

theorem jamCell_eq (h : Tidy s) :
    ∃ s', jamCell s = some s' ∧ s'.cursor = s.cursor + 2 ∧ Writes s s' ∧
      ∀ a, AgreeBelow s'.cursor a s'.slice →
        a.testBit s.cursor ∧ a.testBit (s.cursor + 1) = false := by
  have hinside := h.inside
  obtain ⟨size, hres, -, hroom⟩ := reserve_eq 2 2 h (by omega)
  obtain ⟨hwrites, hbits⟩ := writes_tag2 h true false hroom
  refine ⟨tag2 s size true false, ?_, rfl, hwrites, hbits⟩
  simp [jamCell, hres, JamState.set, tag2]

/-- A field that is written after a tag, together with the tag. -/
theorem Writes.exists_matLoop {s t : JamState} (h : Writes s t) (atom : Nat) :
    ∃ s', matLoop atom (matSize atom + 1) t = some s' ∧ s'.cursor = t.cursor + matSize atom ∧
      Writes s s' ∧ s'.slice.testBit (s'.cursor - 1) ∧ ∀ a, AgreeBelow s'.cursor a s'.slice →
        AgreeBelow t.cursor a t.slice ∧ field a t.cursor = some (matField atom t.cursor) := by
  have hinside := h.tidy.inside
  obtain ⟨s', hloop, hmat⟩ := matLoop_eq atom (matSize atom) h.tidy (by omega)
  refine ⟨s', hloop, hmat.cursor, h.trans hmat.writes, hmat.last, fun a ha => ?_⟩
  exact ⟨(ha.mono (le_of_lt hmat.writes.lt)).trans hmat.below, hmat.reads a ha⟩

theorem jamAtom_eq (h : Tidy s) (atom : Nat) :
    ∃ s', jamAtom s atom = some s' ∧ s'.cursor = s.cursor + 1 + matSize atom ∧ Writes s s' ∧
      s'.slice.testBit (s'.cursor - 1) ∧ ∀ a, AgreeBelow s'.cursor a s'.slice →
        a.testBit s.cursor = false ∧
          field a (s.cursor + 1) = some (matField atom (s.cursor + 1)) := by
  have hinside := h.inside
  obtain ⟨size, hres, -, hroom⟩ := reserve_eq 1 1 h (by omega)
  obtain ⟨hwrites, hbit⟩ := writes_tag1 h false hroom
  obtain ⟨s', hloop, hcursor, hwrites', hlast, hreads⟩ := hwrites.exists_matLoop atom
  refine ⟨s', ?_, hcursor, hwrites', hlast, fun a ha => (hreads a ha).imp_left (hbit a)⟩
  rw [← hloop]
  simp [jamAtom, hres, JamState.set, tag1]

theorem jamBackref_eq (h : Tidy s) (backref : Nat) :
    ∃ s', jamBackref s backref = some s' ∧ s'.cursor = s.cursor + 2 + matSize backref ∧
      Writes s s' ∧ s'.slice.testBit (s'.cursor - 1) ∧ ∀ a, AgreeBelow s'.cursor a s'.slice →
        (a.testBit s.cursor ∧ a.testBit (s.cursor + 1)) ∧
          field a (s.cursor + 2) = some (matField backref (s.cursor + 2)) := by
  have hinside := h.inside
  obtain ⟨size, hres, -, hroom⟩ := reserve_eq 2 2 h (by omega)
  obtain ⟨hwrites, hbits⟩ := writes_tag2 h true true hroom
  obtain ⟨s', hloop, hcursor, hwrites', hlast, hreads⟩ := hwrites.exists_matLoop backref
  refine ⟨s', ?_, hcursor, hwrites', hlast, fun a ha => (hreads a ha).imp_left (hbits a)⟩
  rw [← hloop]
  simp [jamBackref, hres, JamState.set, tag2]

/-! ### Reading one field back -/

/-- A scan that has met nothing the decoders disagree on. -/
structure MarkFree (st : Scan) : Prop where
  overrun : st.overrun = false
  long : st.long = false
  cyclic : st.cyclic = false

/-- The size of a field that ends inside the buffer, at a position that is a
word, can be read. -/
theorem matField_sizeOverruns (hlen : pos + matSize atom ≤ len)
    (hword : pos + matSize atom < wordLimit) : (matField atom pos).sizeOverruns len = false := by
  by_cases hatom : atom = 0
  · simp [Field.sizeOverruns, matField, hatom, met0]
  have hsize : matSize atom = 2 * met0 (met0 atom) + met0 atom := by simp [matSize, hatom]
  have hzeros : met0 (met0 atom) ≤ 64 := by
    apply width_le_iff.mpr
    show met0 atom < wordLimit
    omega
  have hstart : (matField atom pos).start = pos + 2 * met0 (met0 atom) := by
    simp [matField, hatom]
  simp only [Field.sizeOverruns, hstart]
  simp only [matField]
  have hwide : ¬ 64 < met0 (met0 atom) := by omega
  have hin : ¬ len < pos + 2 * met0 (met0 atom) := by omega
  have hfits : ¬ wordLimit ≤ pos + 2 * met0 (met0 atom) := by omega
  simp [hwide, hin, hfits]

theorem scans_atom {st : Scan} (hst : MarkFree st)
    (htag : a.testBit pos = false) (hf : field a (pos + 1) = some (matField atom (pos + 1)))
    (hlen : pos + 1 + matSize atom ≤ len) (hword : pos + 1 + matSize atom < wordLimit) :
    ∃ st', Scans a len pos st (.ok (pos + 1 + matSize atom, some (.atom atom), st')) ∧
      MarkFree st' ∧ st'.started pos = some (some (.atom atom)) := by
  have hscan : Scans a len pos st _ := scans_of_reads (.atom htag hf)
  rw [matField_stop] at hscan
  have hover : ¬ wordLimit ≤ pos + 1 + matSize atom := by omega
  refine ⟨_, hscan, ⟨?_, hst.long, hst.cyclic⟩, ?_⟩
  · simp [enter, readAtom, hst.overrun, Field.atomOverruns,
      matField_sizeOverruns hlen hword, hover]
  · simp [enter]

/-- A back-reference that `jam` wrote is read as one. -/
theorem scans_backref {backref : Nat} {st : Scan} {n : Noun} (hst : MarkFree st)
    (htag : a.testBit pos) (htag' : a.testBit (pos + 1))
    (hf : field a (pos + 2) = some (matField backref (pos + 2)))
    (hn : st.started backref = some (some n)) (hbackref : backref < pos)
    (hlen : pos + 2 + matSize backref ≤ len) (hword : pos + 2 + matSize backref < wordLimit) :
    ∃ st', Scans a len pos st (.ok (pos + 2 + matSize backref, some n, st')) ∧ MarkFree st' := by
  have hscan : Scans a len pos st _ := scans_of_reads (.backref htag htag' hf hn)
  rw [matField_stop] at hscan
  have hshort : ¬ 64 < met0 backref := by
    have hle : met0 backref ≤ 64 := by
      apply width_le_iff.mpr
      show backref < wordLimit
      omega
    omega
  have hlong : (matField backref (pos + 2)).isLong = false := by
    simp [Field.isLong, matField, hshort]
  have hin : ¬ len < pos + 2 + matSize backref := by omega
  refine ⟨_, hscan, ?_, ?_, ?_⟩
  · simp [follow, readBackref, hst.overrun, Field.backrefOverruns,
      matField_sizeOverruns hlen hword, hin]
  · simp [follow, readBackref, hst.long, hlong]
  · simp [follow, readBackref, hst.cyclic]

/-! ### One noun -/

/-- The two back-reference maps are in step at `pos`: what `jam` has written, the
scan has read, except for the cells that enclose what comes next. Those are
told apart by their size. -/
def InStep (backrefMap : Noun → Option Nat) (st : Scan) (pos size : Nat) : Prop :=
  ∀ k p, backrefMap k = some p → p < pos ∧ (st.started p = some (some k) ∨ size < nodes k)

/-- A noun was written between the two states, and reads back as that noun. -/
structure WritesNoun (n : Noun) (backrefMap backrefMap' : Noun → Option Nat)
    (s s' : JamState) : Prop where
  writes : Writes s s'
  last : s'.slice.testBit (s'.cursor - 1) = true
  scans : ∀ a len st, AgreeBelow s'.cursor a s'.slice → s'.cursor ≤ len →
    s'.cursor < wordLimit → MarkFree st → InStep backrefMap st s.cursor (nodes n) →
    ∃ st', Scans a len s.cursor st (.ok (s'.cursor, some n, st')) ∧ MarkFree st' ∧
      ∀ k p, backrefMap' k = some p →
        p < s'.cursor ∧ (st'.started p = some (some k) ∨ backrefMap k = some p)

/-- Some number of turns, at most `bound`, takes the loop from one run to the
other. -/
def JamRuns (bound : Nat) (run run' : JamRun) : Prop :=
  ∃ k ≤ bound, ∀ turns, jamLoop (turns + k) run = jamLoop turns run'

theorem JamRuns.trans {b b' : Nat} {run run' run'' : JamRun} (h : JamRuns b run run')
    (h' : JamRuns b' run' run'') : JamRuns (b + b') run run'' := by
  obtain ⟨k, hk, hrun⟩ := h
  obtain ⟨k', hk', hrun'⟩ := h'
  refine ⟨k' + k, by omega, ?_⟩
  intro turns
  rw [← add_assoc, hrun, hrun']

variable {backrefMap : Noun → Option Nat}

theorem jamRuns_turn {noun : Noun} {stack : List Noun}
    {run : JamRun} (h : jamTurn noun stack backrefMap s = some run) :
    JamRuns 1 { stack := noun :: stack, backrefMap, state := s } run := by
  refine ⟨1, le_refl 1, ?_⟩
  intro turns
  simp [jamLoop, h]

/-- An atom written out, entered in the map or not. -/
theorem writesNoun_atom (h : Tidy s) (atom : Nat) {backrefMap' : Noun → Option Nat}
    (hmap : ∀ k p, backrefMap' k = some p →
      (k = .atom atom ∧ p = s.cursor) ∨ backrefMap k = some p) :
    ∃ s', jamAtom s atom = some s' ∧ WritesNoun (.atom atom) backrefMap backrefMap' s s' := by
  obtain ⟨s', hjam, hcursor, hwrites, hlast, hreads⟩ := jamAtom_eq h atom
  refine ⟨s', hjam, hwrites, hlast, ?_⟩
  intro a len st ha hlen hword hst hstep
  obtain ⟨htag, hf⟩ := hreads a ha
  rw [hcursor] at hlen hword ⊢
  obtain ⟨st', hscan, hfree, hentered⟩ := scans_atom hst htag hf hlen hword
  refine ⟨st', hscan, hfree, ?_⟩
  intro k p hp
  rcases hmap k p hp with ⟨rfl, rfl⟩ | hold
  · exact ⟨by omega, .inl hentered⟩
  · have hlt := (hstep k p hold).1
    exact ⟨by omega, .inr hold⟩

/-- A noun written as a reference to where it was written before. -/
theorem writesNoun_backref (h : Tidy s) {n : Noun} {backref : Nat}
    (hn : backrefMap n = some backref) :
    ∃ s', jamBackref s backref = some s' ∧ WritesNoun n backrefMap backrefMap s s' := by
  obtain ⟨s', hjam, hcursor, hwrites, hlast, hreads⟩ := jamBackref_eq h backref
  refine ⟨s', hjam, hwrites, hlast, ?_⟩
  intro a len st ha hlen hword hst hstep
  obtain ⟨⟨htag, htag'⟩, hf⟩ := hreads a ha
  rw [hcursor] at hlen hword ⊢
  -- no noun encloses itself, so the one referred to has been read
  obtain ⟨hlt, hread | hsize⟩ := hstep n backref hn
  · obtain ⟨st', hscan, hfree⟩ := scans_backref hst htag htag' hf hread hlt hlen hword
    refine ⟨st', hscan, hfree, ?_⟩
    intro k p hp
    have hlt' := (hstep k p hp).1
    exact ⟨by omega, .inr hp⟩
  · exact absurd hsize (lt_irrefl _)

/-- A cell: its tag, its head and its tail, one after the other. -/
theorem writesNoun_cell {s s1 s2 s3 : JamState} {head tail : Noun} {map2 map3 : Noun → Option Nat}
    (hcursor : s1.cursor = s.cursor + 2) (hwrites : Writes s s1)
    (htags : ∀ a, AgreeBelow s1.cursor a s1.slice →
      a.testBit s.cursor ∧ a.testBit (s.cursor + 1) = false) (hhead : WritesNoun head
      (update backrefMap (.cell head tail) (some s.cursor)) map2 s1 s2)
    (htail : WritesNoun tail map2 map3 s2 s3) :
    WritesNoun (.cell head tail) backrefMap map3 s s3 := by
  refine ⟨(hwrites.trans hhead.writes).trans htail.writes, htail.last, ?_⟩
  intro a len st ha hlen hword hst hstep
  have hlt2 := hhead.writes.lt
  have hlt3 := htail.writes.lt
  have ha2 : AgreeBelow s2.cursor a s2.slice :=
    (ha.mono (le_of_lt hlt3)).trans htail.writes.below
  have ha1 : AgreeBelow s1.cursor a s1.slice :=
    (ha2.mono (le_of_lt hlt2)).trans hhead.writes.below
  obtain ⟨htag, htag'⟩ := htags a ha1
  have hst1 : MarkFree (st.enter s.cursor none) := ⟨hst.overrun, hst.long, hst.cyclic⟩
  -- for the head and the tail, the cell itself is one more that encloses them
  have hstep1 : ∀ size < nodes (.cell head tail),
      InStep (update backrefMap (.cell head tail) (some s.cursor)) (st.enter s.cursor none)
        s1.cursor size := by
    intro size hsize k p hp
    by_cases hk : k = .cell head tail
    · subst hk
      simp only [update_self, Option.some.injEq] at hp
      exact ⟨by omega, .inr hsize⟩
    · rw [update_of_ne hk] at hp
      obtain ⟨hlt, hread | hlarge⟩ := hstep k p hp
      · have hne : p ≠ s.cursor := by omega
        exact ⟨by omega, .inl (by simpa [enter, hne] using hread)⟩
      · exact ⟨by omega, .inr (hsize.trans hlarge)⟩
  have hnodes : nodes (.cell head tail) = nodes head + nodes tail + 1 := rfl
  obtain ⟨st2, hscan2, hst2, hmap2⟩ :=
    hhead.scans a len _ ha2 (by omega) (by omega) hst1 (hstep1 _ (by omega))
  obtain ⟨-, hbefore2, -⟩ := scans_started hscan2
  -- what the head entered has been read, and the rest is as before
  have hstep2 : InStep map2 st2 s2.cursor (nodes tail) := by
    intro k p hp
    obtain ⟨hlt, hread | hold⟩ := hmap2 k p hp
    · exact ⟨hlt, .inl hread⟩
    · obtain ⟨hlt', hcase⟩ := hstep1 (nodes tail) (by omega) k p hold
      exact ⟨hlt, hcase.imp_left (hbefore2 p hlt').trans⟩
  obtain ⟨st3, hscan3, hst3, hmap3⟩ := htail.scans a len st2 ha hlen hword hst2 hstep2
  obtain ⟨-, hbefore3, -⟩ := scans_started hscan3
  rw [hcursor] at hscan2
  refine ⟨_, scans_of_reads (.cell htag htag' hscan2 hscan3),
    ⟨hst3.overrun, hst3.long, hst3.cyclic⟩, ?_⟩
  intro k p hp
  obtain ⟨hlt, hcase⟩ := hmap3 k p hp
  refine ⟨hlt, ?_⟩
  -- the cell is entered last; any other entry is older, or was read inside it
  by_cases hk : k = .cell head tail ∧ p = s.cursor
  · obtain ⟨rfl, rfl⟩ := hk
    left
    simp [enter]
  · have hinside : st3.started p = some (some k) →
        (st3.enter s.cursor (cellOf (some head) (some tail))).started p = some (some k) := by
      intro hread
      have hne : p ≠ s.cursor := by
        rintro rfl
        rw [hbefore3 _ (by omega), hbefore2 _ (by omega)] at hread
        simp [enter] at hread
      simpa [enter, hne] using hread
    rcases hcase with hread | hold
    · exact .inl (hinside hread)
    obtain ⟨hltp, hread | hold⟩ := hmap2 k p hold
    · exact .inl (hinside ((hbefore3 p hltp).trans hread))
    right
    have hne : k ≠ .cell head tail := by
      rintro rfl
      simp only [update_self, Option.some.injEq] at hold
      exact hk ⟨rfl, hold.symm⟩
    rwa [update_of_ne hne] at hold

/-- The loop of `jam` writes the noun on top of its stack, and it reads back as
that noun. -/
theorem jam_noun (n : Noun) : ∀ (stack : List Noun) (backrefMap : Noun → Option Nat)
    (s : JamState), Tidy s →
    ∃ backrefMap' s', JamRuns (nodes n) { stack := n :: stack, backrefMap, state := s }
        { stack, backrefMap := backrefMap', state := s' } ∧
      WritesNoun n backrefMap backrefMap' s s' := by
  induction n with
  | atom atom =>
    intro stack backrefMap s h
    cases hmap : backrefMap (.atom atom) with
    | none =>
      have hentered : ∀ k p,
          update backrefMap (.atom atom) (some s.cursor) k = some p →
          (k = .atom atom ∧ p = s.cursor) ∨ backrefMap k = some p := by
        intro k p hp
        by_cases hk : k = .atom atom
        · subst hk
          simp only [update_self, Option.some.injEq] at hp
          exact .inl ⟨rfl, hp.symm⟩
        · rw [update_of_ne hk] at hp
          exact .inr hp
      obtain ⟨s', hjam, hwrites⟩ := writesNoun_atom h atom hentered
      exact ⟨_, s', jamRuns_turn (by simp [jamTurn, hmap, hjam]), hwrites⟩
    | some backref =>
      by_cases hsize : met0 atom ≤ met0 backref
      · have hsame : ∀ k p, backrefMap k = some p →
            (k = .atom atom ∧ p = s.cursor) ∨ backrefMap k = some p := fun _ _ hp => .inr hp
        obtain ⟨s', hjam, hwrites⟩ := writesNoun_atom h atom hsame
        exact ⟨_, s', jamRuns_turn (by simp [jamTurn, hmap, hsize, hjam]), hwrites⟩
      · obtain ⟨s', hjam, hwrites⟩ := writesNoun_backref h hmap
        exact ⟨_, s', jamRuns_turn (by simp [jamTurn, hmap, hsize, hjam]), hwrites⟩
  | cell head tail ihh iht =>
    intro stack backrefMap s h
    cases hmap : backrefMap (.cell head tail) with
    | some backref =>
      obtain ⟨s', hjam, hwrites⟩ := writesNoun_backref h hmap
      obtain ⟨k, hk, hturns⟩ : JamRuns 1
          { stack := .cell head tail :: stack, backrefMap, state := s }
          { stack, backrefMap, state := s' } := jamRuns_turn (by simp [jamTurn, hmap, hjam])
      refine ⟨_, s', ⟨k, ?_, hturns⟩, hwrites⟩
      simp only [nodes]
      omega
    | none =>
      obtain ⟨s1, hjam, hcursor, hwrites, htags⟩ := jamCell_eq h
      have hturn : JamRuns 1 { stack := .cell head tail :: stack, backrefMap, state := s }
          { stack := head :: tail :: stack
            backrefMap := update backrefMap (.cell head tail) (some s.cursor)
            state := s1 } := jamRuns_turn (by simp [jamTurn, hmap, hjam])
      obtain ⟨map2, s2, hruns2, hhead⟩ := ihh (tail :: stack) _ s1 hwrites.tidy
      obtain ⟨map3, s3, hruns3, htail⟩ := iht stack map2 s2 hhead.writes.tidy
      refine ⟨map3, s3, ?_, writesNoun_cell hcursor hwrites htags hhead htail⟩
      have hcount : nodes (.cell head tail) = 1 + nodes head + nodes tail := by
        simp only [nodes]
        omega
      rw [hcount]
      exact (hturn.trans hruns2).trans hruns3

/-- `jam` returns: it takes no more turns than the noun has nodes. -/
theorem exists_jam (n : Noun) : ∃ backrefMap s, jam n = some s.slice ∧
    WritesNoun n (fun _ => none) backrefMap { cursor := 0, size := 8, slice := 0 } s := by
  have htidy : Tidy { cursor := 0, size := 8, slice := 0 } := ⟨by simp, by simp, by simp⟩
  obtain ⟨backrefMap, s, ⟨k, hk, hruns⟩, hwrites⟩ := jam_noun n [] (fun _ => none) _ htidy
  refine ⟨backrefMap, s, ?_, hwrites⟩
  obtain ⟨spare, hspare⟩ : ∃ spare, nodes n = spare + k := ⟨nodes n - k, by omega⟩
  have hloop := hruns spare
  rw [← hspare] at hloop
  simp [jam, hloop, jamLoop]

/-- `cue` undoes `jam`, for every noun whose encoding has fewer bits than a
`usize` counts. -/
theorem cue_jam (n : Noun) (hfits : ∀ j, jam n = some j → width j < wordLimit) :
    ∃ j, jam n = some j ∧ CueOk j n := by
  obtain ⟨backrefMap, s, hjam, hwrites⟩ := exists_jam n
  refine ⟨s.slice, hjam, ?_⟩
  have hword := hfits s.slice hjam
  -- the last bit written is a one, so the atom is exactly as wide as what was written
  have hcursor : width s.slice = s.cursor := by
    have hle := width_le_iff.mpr hwrites.writes.tidy.clear
    by_contra hne
    have hzero : s.slice.testBit (s.cursor - 1) = false := testBit_of_width_le (by omega)
    rw [hwrites.last] at hzero
    cases hzero
  have hlen := width_le_asBitslice s.slice
  obtain ⟨st, hscan, hfree, -⟩ := hwrites.scans s.slice (asBitslice s.slice).len .start
    (AgreeBelow.refl _ _) (by omega) (by omega) ⟨rfl, rfl, rfl⟩ (by rintro _ _ ⟨⟩)
  obtain ⟨-, -, hreads⟩ := cue_of_scans hscan
  obtain ⟨memory, v, hstops, hden⟩ := hreads _ _ _ rfl hfree.overrun hfree.long
  exact ((cue_of_ok hstops).2 n).mpr (hden n rfl)

/-- A noun with an atom written twice and a cell referred to. -/
theorem cue_jam_shared :
    jam (.cell (.cell (.atom 5) (.atom 5)) (.cell (.atom 5) (.atom 5))) = some 0x93b8b85 ∧
      ∃ j, jam (.cell (.cell (.atom 5) (.atom 5)) (.cell (.atom 5) (.atom 5))) = some j ∧
        CueOk j (.cell (.cell (.atom 5) (.atom 5)) (.cell (.atom 5) (.atom 5))) := by
  have hjam : jam (.cell (.cell (.atom 5) (.atom 5)) (.cell (.atom 5) (.atom 5))) =
      some 0x93b8b85 := by decide
  refine ⟨hjam, cue_jam _ ?_⟩
  intro j hj
  cases hj
  decide

-- The encodings the tests of the jet expect.
example : jam (.atom 0) = some 0x2 := by decide
example : jam (.atom 1) = some 0xc := by decide
example : jam (.cell (.atom 0) (.atom 0)) = some 0x29 := by decide

/-- `++cue` reads what the jet `jam` wrote. -/
theorem hoonCueOk_of_jam {n : Noun} {j : Nat} (hjam : jam n = some j)
    (hfits : width j < wordLimit) : Hoon.CueOk j n := by
  obtain ⟨backrefMap, s, hs, hwrites⟩ := exists_jam n
  cases hjam.symm.trans hs
  -- the last bit written is a one
  have hcursor : s.cursor ≤ width s.slice := by
    by_contra hlt
    have hzero : s.slice.testBit (s.cursor - 1) = false := testBit_of_width_le (by omega)
    rw [hwrites.last] at hzero
    cases hzero
  obtain ⟨st, hscan, hfree, -⟩ := hwrites.scans s.slice s.cursor .start (AgreeBelow.refl _ _)
    le_rfl (by omega) ⟨rfl, rfl, rfl⟩ (by rintro _ _ ⟨⟩)
  have hfollows := Hoon.follows_of_scans hscan Hoon.knows_start rfl
  obtain ⟨x, m, hx, heval, -⟩ := hfollows.reads _ _ _ rfl hfree.cyclic
  cases hx
  exact ⟨_, _, heval⟩

/-- What the jet `jam` writes is read by `++cue` as the noun and as nothing else, and it is written
for no other noun. -/
theorem hoonCue_jam {n : Noun} {j : Nat} (hjam : jam n = some j) (hfits : width j < wordLimit) :
    (∀ x, Hoon.CueOk j x ↔ x = n) ∧ ∀ m, jam m = some j ↔ m = n := by
  obtain ⟨p, r, heval⟩ := hoonCueOk_of_jam hjam hfits
  have hreads := (Hoon.cue_of_ok heval).2
  refine ⟨hreads, fun m => ⟨fun hm => (hreads m).1 (hoonCueOk_of_jam hm hfits), ?_⟩⟩
  rintro rfl
  exact hjam

theorem hoonCue_jam_pair : (∀ x, Hoon.CueOk 0x29 x ↔ x = .cell (.atom 0) (.atom 0)) ∧
    ∀ m, jam m = some 0x29 ↔ m = .cell (.atom 0) (.atom 0) :=
  hoonCue_jam (by decide) (by decide)

end Nockchain.Serialization
