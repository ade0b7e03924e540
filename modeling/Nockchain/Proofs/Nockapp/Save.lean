import Nockchain.Lib.Fold
import Nockchain.Nockapp.Save

/-!
# `Nockchain.Proofs.Nockapp.Save`: saves, crashes and restarts

A `World` is the disk, the saver of the process that runs, if one does, and what has happened so
far: the checkpoints whose saves were completed and the futures that have resolved. Once a
checkpoint has been completed, the last one is always in one of the files, and the other file is
not preferred to it (`Kept`), so that a restart finds it and the next save goes to the other file.

Before that there is nothing to keep. `try_load` takes the directory for a new one only if neither
file exists, so that a first save which is interrupted leaves a directory that cannot be loaded
(`recovers_iff`).
-/

set_option autoImplicit false

namespace Nockchain.Nockapp

open Lib JammedCheckpointV2

/-! ### Files -/

theorem WhichSnapshot.next_next (p : WhichSnapshot) : p.next.next = p := by cases p <;> rfl

theorem Disk.read_write {Bytes : Type} (d : Disk Bytes) (bytes : Bytes) (p : WhichSnapshot) :
    (d.write bytes p).read p = some bytes := by
  cases p <;> rfl

theorem Disk.read_next_write {Bytes : Type} (d : Disk Bytes) (bytes : Bytes) (p : WhichSnapshot) :
    (d.write bytes p).read p.next = d.read p.next := by
  cases p <;> rfl

variable {Bytes : Type} [Format Bytes]

/-- The file is no checkpoint of any version. -/
def Fails (bytes : Bytes) : Prop :=
  (load bytes).isNone ∧
    (JammedCheckpointV1.load Format.decodeV1 snapshotVersion1 bytes).isNone ∧
    (JammedCheckpointV1.load Format.decodeV0 snapshotVersion0 bytes).isNone

theorem Fails.loadCheckpointFile {bytes : Bytes} (h : Fails bytes) :
    loadCheckpointFile (some bytes) = none := by
  obtain ⟨h2, h1, h0⟩ := h
  rw [Option.isNone_iff_eq_none] at h2 h1 h0
  simp [Nockapp.loadCheckpointFile, h2, h1, h0]

/-- A file that was written completely is loaded. -/
theorem load_encode (c : SaveableCheckpoint) :
    loadCheckpointFile (some (c.toJammed : JammedCheckpointV2 Bytes).encode) =
      some (.v2 c.toJammed) := by
  have hvalid : (c.toJammed : JammedCheckpointV2 Bytes).validate := by
    simp [validate, SaveableCheckpoint.toJammed, new]
  have hload : load (c.toJammed : JammedCheckpointV2 Bytes).encode =
      some c.toJammed := by
    simp [load, encode, Format.decode_encodeEnvelope,
      Format.decode_encodePayload, hvalid, guard]
  simp [loadCheckpointFile, hload]

theorem toSaveable_toJammed (c : SaveableCheckpoint) :
    (c.toJammed : JammedCheckpointV2 Bytes).toSaveable = some c := by
  simp [toSaveable, SaveableCheckpoint.toJammed, new,
    Format.cue_jam]

/-! ### The system -/

/-- What happens to a node. An interrupted save may end the process. -/
inductive Step (Bytes : Type) where
  | start
  | save (c : SaveableCheckpoint)
  | interrupt (bytes : Bytes) (killed : Bool)
  | stop
  | wait (eventNum : Nat)

/-- The save was interrupted. -/
def Step.isInterrupt : Step Bytes → Bool
  | interrupt _ _ => true
  | _ => false

/-- The disk, the running process, the checkpoints that were saved completely, the last one first,
and the event numbers whose futures have resolved. -/
structure World (Bytes : Type) where
  disk : Disk Bytes
  process : Option Saver
  done : List SaveableCheckpoint
  resolved : List Nat

/-- An empty directory. -/
def World.init : World Bytes := ⟨⟨none, none⟩, none, [], []⟩

/-- A step that can be taken. A process that cannot load does not run. -/
inductive Steps : World Bytes → Step Bytes → World Bytes → Prop where
  | start {w : World Bytes} : w.process = none →
      Steps w .start { w with process := (tryLoad w.disk).map Prod.fst }
  | save {w : World Bytes} {s : Saver} {c : SaveableCheckpoint} : w.process = some s →
      s.saveNeeded c.eventNum = true →
      Steps w (.save c)
        { disk := (s.save w.disk c).2.1, process := some (s.save w.disk c).1, done := c :: w.done,
          resolved := (s.save w.disk c).2.2 ++ w.resolved }
  | interrupt {w : World Bytes} {s : Saver} {bytes : Bytes} {killed : Bool} :
      w.process = some s → Fails bytes →
      Steps w (.interrupt bytes killed)
        { w with disk := w.disk.write bytes s.saveToNext,
                 process := if killed then none else some s }
  | stop {w : World Bytes} : Steps w .stop { w with process := none }
  | wait {w : World Bytes} {s : Saver} {n : Nat} : w.process = some s →
      Steps w (.wait n)
        { w with process := some (s.waitForSnapshot n).2,
                 resolved := if (s.waitForSnapshot n).1 then n :: w.resolved else w.resolved }

/-- `try_load` succeeds with the last completed checkpoint, and the file that it came from is not
the one that is saved to next. -/
def World.Recovers (w : World Bytes) : Prop :=
  ∃ s, tryLoad w.disk = some (s, w.done.head?) ∧
    ∀ c ∈ w.done.head?, ∀ bytes,
      loadCheckpointFile ((w.disk.write bytes s.saveToNext).read s.saveToNext.next) =
        some (.v2 c.toJammed)

/-! ### What the disk keeps -/

/-- The checkpoint is in a file, and the other file does not come before it. -/
structure Kept (d : Disk Bytes) (p : WhichSnapshot) (c : SaveableCheckpoint) : Prop where
  load : loadCheckpointFile (d.read p) = some (.v2 c.toJammed)
  other : ∀ c' ∈ loadCheckpointFile (d.read p.next), c'.eventNum < c.eventNum

namespace Kept

variable {d : Disk Bytes} {p : WhichSnapshot} {c : SaveableCheckpoint}

/-- Loading takes the newer of the two files, and the next save goes to the other one. -/
theorem choose (h : Kept d p c) :
    Nockapp.choose (loadCheckpointFile d.file0) (loadCheckpointFile d.file1) =
      some (.v2 c.toJammed, p.next) := by
  obtain ⟨hload, hother⟩ := h
  have hnum : (LoadedCheckpoint.v2 (c.toJammed : JammedCheckpointV2 Bytes)).eventNum = c.eventNum :=
    rfl
  cases p with
  | snapshot0 =>
    have hfile : loadCheckpointFile d.file0 = some (.v2 c.toJammed) := hload
    rw [hfile]
    cases h1 : loadCheckpointFile d.file1 with
    | none => rfl
    | some c1 =>
      have hlt := hother c1 h1
      simp only [Nockapp.choose, hnum, gt_iff_lt, hlt, if_true]
      rfl
  | snapshot1 =>
    have hfile : loadCheckpointFile d.file1 = some (.v2 c.toJammed) := hload
    rw [hfile]
    cases h0 : loadCheckpointFile d.file0 with
    | none => rfl
    | some c0 =>
      have hlt := hother c0 h0
      simp only [Nockapp.choose, hnum, gt_iff_lt, Nat.not_lt.2 (Nat.le_of_lt hlt), if_false]
      rfl

theorem tryLoad (h : Kept d p c) : Nockapp.tryLoad d =
      some ({ saveToNext := p.next, waiters := [], lastEventNum := c.eventNum }, some c) := by
  have hsome : (d.file0.isNone && d.file1.isNone) = false := by
    have hload := h.load
    cases p with
    | snapshot0 => cases hf : d.file0 <;> simp_all [Disk.read, loadCheckpointFile]
    | snapshot1 => cases hf : d.file1 <;> simp_all [Disk.read, loadCheckpointFile]
  unfold Nockapp.tryLoad
  rw [if_neg (by rw [hsome]; decide), h.choose]
  simp only [Option.bind_eq_bind, Option.bind_some, LoadedCheckpoint.intoSaveable,
    toSaveable_toJammed, Option.pure_def]
  rfl

/-- Writing the other file. -/
theorem write (h : Kept d p c) {bytes : Bytes} (hfails : Fails bytes) :
    Kept (d.write bytes p.next) p c := by
  have hread : (d.write bytes p.next).read p = d.read p := by
    have := d.read_next_write bytes p.next
    rwa [p.next_next] at this
  refine ⟨by rw [hread]; exact h.load, ?_⟩
  intro c' hc'
  rw [Disk.read_write, hfails.loadCheckpointFile] at hc'
  cases hc'

/-- A completed save over the other file. -/
theorem save (h : Kept d p c) {c' : SaveableCheckpoint} (hlt : c.eventNum < c'.eventNum) :
    Kept (d.write (c'.toJammed : JammedCheckpointV2 Bytes).encode p.next) p.next c' := by
  refine ⟨by rw [Disk.read_write, load_encode], ?_⟩
  intro c'' hc''
  rw [Disk.read_next_write, p.next_next, h.load] at hc''
  cases hc''
  exact hlt

end Kept

/-! ### Every run -/

/-- Before the first completed save no file loads, after it the last one is kept. The saver of the
process knows where. -/
def Consistent (d : Disk Bytes) (process : Option Saver) : List SaveableCheckpoint → Prop
  | [] => (∀ p, loadCheckpointFile (d.read p) = none) ∧ ∀ s ∈ process, s.lastEventNum = 0
  | c :: _ => ∃ p, Kept d p c ∧
      ∀ s ∈ process, s.saveToNext = p.next ∧ s.lastEventNum = c.eventNum

/-- A future has resolved only for a checkpoint that was saved completely. -/
def World.Honest (w : World Bytes) : Prop :=
  ∀ n ∈ w.resolved, 1 ≤ n → ∃ c ∈ w.done, n ≤ c.eventNum

/-- There is no file. -/
def Disk.Empty (d : Disk Bytes) : Prop := d.file0 = none ∧ d.file1 = none

theorem tryLoad_of_empty {d : Disk Bytes} (h : d.Empty) :
    tryLoad d = some ({ saveToNext := .snapshot0, waiters := [], lastEventNum := 0 }, none) := by
  simp [tryLoad, h.1, h.2]

theorem tryLoad_of_fails {d : Disk Bytes} (h : ¬ d.Empty)
    (hload : ∀ p, loadCheckpointFile (d.read p) = none) : tryLoad d = none := by
  have h0 : loadCheckpointFile d.file0 = none := hload .snapshot0
  have h1 : loadCheckpointFile d.file1 = none := hload .snapshot1
  have hsome : ¬ (d.file0.isNone && d.file1.isNone) := by
    intro hnone
    rw [Bool.and_eq_true, Option.isNone_iff_eq_none, Option.isNone_iff_eq_none] at hnone
    exact h hnone
  rw [tryLoad, if_neg hsome, h0, h1]
  rfl

variable {d : Disk Bytes} {done : List SaveableCheckpoint}

/-- The saver of a process is at the event of the last completed checkpoint. -/
theorem Consistent.lastEventNum {s : Saver} (h : Consistent d (some s) done) :
    s.lastEventNum = (done.head?.map SaveableCheckpoint.eventNum).getD 0 := by
  cases done with
  | nil => exact h.2 s rfl
  | cons c rest =>
    obtain ⟨p, -, hprocess⟩ := h
    exact (hprocess s rfl).2

/-- Another process on the same disk. -/
theorem Consistent.process {process process' : Option Saver}
    (h : Consistent d process done)
    (hsame : ∀ s ∈ process', ∃ s0 ∈ process, s.saveToNext = s0.saveToNext ∧
      s.lastEventNum = s0.lastEventNum) : Consistent d process' done := by
  cases done with
  | nil =>
    refine ⟨h.1, fun s hs => ?_⟩
    obtain ⟨s0, hs0, -, hlast⟩ := hsame s hs
    rw [hlast]
    exact h.2 s0 hs0
  | cons c rest =>
    obtain ⟨p, hkept, hprocess⟩ := h
    refine ⟨p, hkept, fun s hs => ?_⟩
    obtain ⟨s0, hs0, hnext, hlast⟩ := hsame s hs
    rw [hnext, hlast]
    exact hprocess s0 hs0

theorem Consistent.start
    (h : Consistent d none done) : Consistent d ((tryLoad d).map Prod.fst) done := by
  cases done with
  | nil =>
    refine ⟨h.1, fun s hs => ?_⟩
    by_cases hempty : d.Empty
    · rw [tryLoad_of_empty hempty] at hs
      rw [← Option.some.inj hs]
    · rw [tryLoad_of_fails hempty h.1] at hs
      cases hs
  | cons c rest =>
    obtain ⟨p, hkept, -⟩ := h
    refine ⟨p, hkept, fun s hs => ?_⟩
    rw [hkept.tryLoad] at hs
    cases hs
    exact ⟨rfl, rfl⟩

theorem Consistent.save {s : Saver}
    (h : Consistent d (some s) done) {c : SaveableCheckpoint} (hneeded : s.saveNeeded c.eventNum) :
    Consistent (s.save d c).2.1 (some (s.save d c).1) (c :: done) := by
  have hlt : s.lastEventNum < c.eventNum := of_decide_eq_true hneeded
  refine ⟨s.saveToNext, ?_, fun s' hs' => ?_⟩
  · show Kept (d.write (c.toJammed : JammedCheckpointV2 Bytes).encode s.saveToNext) _ c
    cases done with
    | nil =>
      refine ⟨by rw [Disk.read_write, load_encode], fun c' hc' => ?_⟩
      rw [Disk.read_next_write, h.1] at hc'
      cases hc'
    | cons c₀ rest =>
      obtain ⟨p, hkept, hprocess⟩ := h
      obtain ⟨hnext, hlast⟩ := hprocess s rfl
      rw [hnext]
      exact hkept.save (hlast ▸ hlt)
  · cases hs'
    exact ⟨rfl, rfl⟩

theorem Consistent.interrupt {s : Saver}
    (h : Consistent d (some s) done) {bytes : Bytes} (hfails : Fails bytes) :
    Consistent (d.write bytes s.saveToNext) (some s) done := by
  cases done with
  | nil =>
    refine ⟨fun p => ?_, h.2⟩
    by_cases hp : p = s.saveToNext
    · rw [hp, Disk.read_write, hfails.loadCheckpointFile]
    · have hnext : p = s.saveToNext.next := by
        cases p <;> cases hs : s.saveToNext <;> simp_all [WhichSnapshot.next]
      rw [hnext, Disk.read_next_write]
      exact h.1 _
  | cons c rest =>
    obtain ⟨p, hkept, hprocess⟩ := h
    refine ⟨p, ?_, hprocess⟩
    rw [(hprocess s rfl).1]
    exact hkept.write hfails

namespace Steps

variable {w w' : World Bytes} {st : Step Bytes}

/-- Along every run: a save, an interrupted one, or a restart. -/
theorem consistent (h : Steps w st w') (hw : Consistent w.disk w.process w.done) :
    Consistent w'.disk w'.process w'.done := by
  cases h with
  | start hprocess =>
    rw [hprocess] at hw
    exact hw.start
  | save hs hneeded =>
    rw [hs] at hw
    exact hw.save hneeded
  | interrupt hs hfails =>
    rw [hs] at hw
    refine (hw.interrupt hfails).process fun s' hs' => ?_
    split_ifs at hs'
    · cases hs'
    · exact ⟨s', hs', rfl, rfl⟩
  | stop => exact hw.process fun s hs => by cases hs
  | @wait s n hs =>
    refine hw.process fun s' hs' => ⟨s, hs, ?_⟩
    cases hs'
    unfold Saver.waitForSnapshot
    split <;> exact ⟨rfl, rfl⟩

/-- Futures resolve for the last completed checkpoint. -/
theorem honest (h : Steps w st w') (hw : Consistent w.disk w.process w.done) (hhonest : w.Honest) :
    w'.Honest := by
  cases h with
  | start hprocess => exact hhonest
  | @save s c hs hneeded =>
    intro n hn hpos
    rcases List.mem_append.1 hn with hn | hn
    · refine ⟨c, (.head _), ?_⟩
      have hready : n ∈ s.waiters.filter (· ≤ c.eventNum) := by
        simpa [Saver.save, List.partition_eq_filter_filter] using hn
      simpa using List.of_mem_filter hready
    · obtain ⟨c', hc', hle⟩ := hhonest n hn hpos
      exact ⟨c', .tail _ hc', hle⟩
  | interrupt hs hfails | stop => exact hhonest
  | @wait s m hs =>
    rw [hs] at hw
    intro n hn hpos
    have hmem : n ∈ w.resolved ∨ (n = m ∧ m ≤ s.lastEventNum) := by
      unfold Saver.waitForSnapshot at hn
      by_cases hle : m ≤ s.lastEventNum
      · simp [hle] at hn
        exact hn.elim (fun h => .inr ⟨h, hle⟩) .inl
      · simp [hle] at hn
        exact .inl hn
    rcases hmem with hn | ⟨rfl, hle⟩
    · exact hhonest n hn hpos
    rw [hw.lastEventNum] at hle
    cases hdone : w.done with
    | nil =>
      rw [hdone] at hle
      exact absurd (Nat.le_trans hpos hle) (by simp)
    | cons c rest =>
      rw [hdone] at hle
      exact ⟨c, (.head _), hle⟩

/-- Until a save is completed, only interrupted ones make files. -/
theorem empty_iff (h : Steps w st w') (hdone : w'.done = []) :
    w.done = [] ∧ (w'.disk.Empty ↔ w.disk.Empty ∧ st.isInterrupt = false) := by
  cases h with
  | start hprocess => exact ⟨hdone, by simp [Step.isInterrupt]⟩
  | save hs hneeded => cases hdone
  | @interrupt s bytes killed hs hfails =>
    refine ⟨hdone, ?_⟩
    have hfile : ¬ (w.disk.write bytes s.saveToNext).Empty := by
      unfold Disk.Empty
      cases s.saveToNext <;> simp [Disk.write]
    simp [Step.isInterrupt, hfile]
  | stop | wait hs => exact ⟨hdone, by simp [Step.isInterrupt]⟩

end Steps

theorem empty_iff_of_run {w w' : World Bytes} {steps : List (Step Bytes)}
    (h : Run Steps w steps w') (hdone : w'.done = []) :
    w.done = [] ∧ (w'.disk.Empty ↔ w.disk.Empty ∧ ∀ st ∈ steps, st.isInterrupt = false) := by
  induction h with
  | nil w => exact ⟨hdone, by simp⟩
  | cons hx _ ih =>
    obtain ⟨hmid, hiff⟩ := ih hdone
    obtain ⟨hfirst, hstep⟩ := hx.empty_iff hmid
    refine ⟨hfirst, ?_⟩
    rw [hiff, hstep, List.forall_mem_cons, and_assoc]

theorem World.recovers_of_done {w : World Bytes} (h : Consistent w.disk w.process w.done)
    (hdone : w.done ≠ []) : w.Recovers := by
  unfold World.Recovers
  cases hlist : w.done with
  | nil => exact absurd hlist hdone
  | cons c rest =>
    rw [hlist] at h
    obtain ⟨p, hkept, -⟩ := h
    refine ⟨_, hkept.tryLoad, fun c' hc' bytes => ?_⟩
    rw [← Option.some.inj hc', Disk.read_next_write, p.next_next]
    exact hkept.load

theorem World.recovers_iff_empty {w : World Bytes} (h : Consistent w.disk w.process w.done)
    (hdone : w.done = []) : w.Recovers ↔ w.disk.Empty := by
  rw [hdone] at h
  unfold World.Recovers
  rw [hdone]
  constructor
  · rintro ⟨s, hload, -⟩
    by_contra hempty
    rw [tryLoad_of_fails hempty h.1] at hload
    cases hload
  · intro hempty
    exact ⟨_, tryLoad_of_empty hempty, fun c hc => by cases hc⟩

/-- In every run of saves, interrupted saves and restarts, the last completed checkpoint is found
again if there is one, and an empty directory is if no save was interrupted. Futures resolve only
for checkpoints on disk. -/
theorem recovers_iff {steps : List (Step Bytes)} {w : World Bytes}
    (h : Run Steps World.init steps w) :
    (w.Recovers ↔ w.done ≠ [] ∨ ∀ st ∈ steps, st.isInterrupt = false) ∧ w.Honest := by
  have hinit : Consistent (World.init : World Bytes).disk none [] :=
    ⟨fun p => by cases p <;> rfl, fun s hs => by cases hs⟩
  obtain ⟨hconsistent, hhonest⟩ :=
    h.invariant (fun w => Consistent w.disk w.process w.done ∧ w.Honest)
      (fun _ _ _ _ hstep hw => ⟨hstep.consistent hw.1, hstep.honest hw.1 hw.2⟩)
      ⟨hinit, fun n hn => absurd hn List.not_mem_nil⟩
  refine ⟨?_, hhonest⟩
  by_cases hdone : w.done = []
  · rw [World.recovers_iff_empty hconsistent hdone, (empty_iff_of_run h hdone).2]
    simp [hdone, World.init, Disk.Empty]
  · simp [World.recovers_of_done hconsistent hdone, hdone]

section Blobs

/-- Byte strings that are what they encode. -/
inductive Blob where
  | envelope (magicBytes version : Nat) (payload : Blob)
  | payload (kerHash checksum eventNum : Nat) (coldJam stateJam : Blob)
  | noun (n : Noun)
  | junk

local instance blobFormat : Format Blob where
  encodeEnvelope e := .envelope e.magicBytes e.version e.payload
  decodeEnvelope
    | .envelope m v p => some ⟨m, v, p⟩
    | _ => none
  encodePayload c := .payload c.kerHash c.checksum c.eventNum c.coldJam c.stateJam
  decodePayload
    | .payload k s e c t => some ⟨k, s, e, c, t⟩
    | _ => none
  decodeV1 _ := none
  decodeV0 _ := none
  checksum eventNum _ _ := eventNum
  checksumV1 eventNum _ := eventNum
  jam := .noun
  cue
    | .noun n => some n
    | _ => none
  decode_encodeEnvelope _ := rfl
  decode_encodePayload _ := rfl
  cue_jam _ := rfl

theorem fails_junk : Fails Blob.junk := ⟨rfl, rfl, rfl⟩

/-- A first save, and a second one that is interrupted. -/
theorem recovers_iff_second : ∃ w : World Blob,
    Run Steps World.init [.start, .save ⟨0, 1, .atom 0, .atom 0⟩, .interrupt .junk true] w ∧
      w.Recovers ∧ w.Honest := by
  have hrun : Run Steps (World.init : World Blob)
      [.start, .save ⟨0, 1, .atom 0, .atom 0⟩, .interrupt .junk true] _ :=
    .cons (.start rfl) (.cons (.save rfl rfl) (.cons (.interrupt rfl fails_junk) (.nil _)))
  obtain ⟨hrecovers, hhonest⟩ := recovers_iff hrun
  exact ⟨_, hrun, hrecovers.2 (.inl (List.cons_ne_nil _ _)), hhonest⟩

/-- The first save of all is interrupted. There is one file, it does not load, and the node does
not start again. -/
theorem not_recovers_first : ∃ w : World Blob,
    Run Steps World.init [.start, .interrupt .junk true] w ∧ w.done = [] ∧ tryLoad w.disk = none ∧
      ¬ w.Recovers := by
  refine ⟨_, .cons (.start rfl) (.cons (.interrupt rfl fails_junk) (.nil _)), rfl, rfl, ?_⟩
  rintro ⟨s, hload, -⟩
  cases hload

end Blobs

end Nockchain.Nockapp
