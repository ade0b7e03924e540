import Nockchain.Proofs.Mem.Frames

/-!
# `Nockchain.Proofs.Mem.Stack`: the code keeps to the frames

`Tracks` ties a state of the code to the program's view of it: the registers are the pointers of
the current frame, and the memory holds the pointers of every frame in the slots of the frame
after it, or in the free space once that frame is being cleaned up. Each operation keeps it
(`Tracks.step`), because no operation writes to a slot that holds a saved pointer except to move
the allocation pointer of the frame before over a copy.

All of it rests on `Tracks.isWest`. A west frame without a free word is taken for an east frame,
so `run_sound` asks for one free word, and `not_sound_full` is a run that fills a west frame.
-/

set_option autoImplicit false

namespace Nockchain.Mem.Stack

open Option List Function Bool Stack.NockStack Stack.Frame Live

/-! ### Saved pointers -/

variable {x : Interval}

namespace Frame

/-- A pointer of the frame. -/
def pointer (f : Frame) : Saved → Nat
  | .frame => f.frame
  | .stack => f.stack
  | .alloc => f.alloc

/-- Where the frame keeps a pointer of the frame before. -/
def slotAt (f : Frame) (p : Saved) : Nat :=
  if f.west then f.frame - (p.slot + 1) else f.frame + p.slot

/-- Where it keeps the pointer after `pre_copy`. -/
def copySlotAt (f : Frame) (p : Saved) : Nat :=
  if f.west then f.alloc - (p.slot + 1) else f.alloc + p.slot

theorem slot_lt (p : Saved) : p.slot < reserved := by cases p <;> decide

theorem slotAt_mem {f : Frame} (h : f.Fits x) (p : Saved) : f.slotsRegion.Has (f.slotAt p) := by
  have hp := slot_lt p
  unfold Fits at h
  unfold slotsRegion slotAt Interval.Has
  cases hf : f.west <;> simp [hf] at h ⊢ <;> omega

theorem copySlotAt_mem {f : Frame} (h : f.FitsCopying x) (p : Saved) :
    f.savedRegion.Has (f.copySlotAt p) := by
  have hp := slot_lt p
  unfold FitsCopying at h
  unfold savedRegion copySlotAt Interval.Has
  cases hf : f.west <;> simp [hf] at h ⊢ <;> omega

theorem pointer_le {f : Frame} (h : f.Fits x) (p : Saved) : f.pointer p ≤ x.2 := by
  unfold Fits at h
  cases hf : f.west <;> cases p <;> simp [pointer, hf] at h ⊢ <;> omega

end Frame

/-- The pointers of `g` are saved. -/
def SavedAt (s : NockStack) (at_ : Saved → Nat) (g : Frame) : Prop :=
  ∀ p, s.mem (at_ p) = s.derivePtr (g.pointer p)

/-- Each frame has the pointers of the frame before it. -/
def SavedChain (s : NockStack) : List Frame → Prop
  | f :: g :: older => SavedAt s f.slotAt g ∧ SavedChain s (g :: older)
  | _ => True

theorem SavedAt.write {s : NockStack} {at_ : Saved → Nat} {g : Frame} (h : SavedAt s at_ g)
    {a v : Nat} (ha : ∀ p, at_ p ≠ a) : SavedAt (s.write a v) at_ g := by
  intro p
  show update s.mem a v (at_ p) = _
  rw [update_of_ne (ha p)]
  exact h p

variable {fs : List Frame}

/-- The saved pointers depend only on the slots and the start of the arena. -/
theorem SavedChain.congr {s t : NockStack} (h : SavedChain s fs)
    (hmem : ∀ f ∈ fs, ∀ p, t.mem (f.slotAt p) = s.mem (f.slotAt p)) (hstart : t.start = s.start) :
    SavedChain t fs := by
  induction fs with
  | nil => trivial
  | cons f older ih =>
    cases older with
    | nil => trivial
    | cons g older =>
      rw [forall_mem_cons] at hmem
      refine ⟨fun p => ?_, ih h.2 hmem.2⟩
      rw [hmem.1, h.1 p, derivePtr, derivePtr, hstart]

theorem SavedChain.write {s : NockStack} (h : SavedChain s fs) {a v : Nat}
    (ha : ∀ f ∈ fs, ∀ p, f.slotAt p ≠ a) : SavedChain (s.write a v) fs :=
  h.congr (fun f hf p => update_of_ne (ha f hf p) _ _) rfl

/-- No saved pointer is in the space for the next frame. -/
theorem Nested.slotAt_ne {size : Nat} (h : Nested size fs) {a : Nat}
    (ha : (spaceOf size fs).Has a) : ∀ f ∈ fs, ∀ p, f.slotAt p ≠ a := by
  induction fs with
  | nil => exact nofun
  | cons g older ih =>
    obtain ⟨hwest, hfits, hrest⟩ := h
    intro f hf p
    rcases mem_cons.1 hf with rfl | hf
    · intro heq
      have hmem := slotAt_mem hfits p
      rw [heq] at hmem
      exact (hfits.parts hwest _ mem_cons_self).2.not_has hmem ha
    · exact ih hrest (hfits.free_inside.has ha) f hf p

/-! ### Words of the program -/

section Owns

variable {size : Nat} {f : Frame} {older : List Frame} {a : Nat}

theorem Frame.locals_inside (f : Frame) : f.localsRegion.Inside f.slotsRegion := by
  unfold localsRegion slotsRegion Interval.Inside
  split <;> simp only <;> omega

theorem Frame.slotAt_ne_of_locals {f : Frame} (ha : f.localsRegion.Has a) (p : Saved) :
    f.slotAt p ≠ a := by
  have hp := slot_lt p
  unfold localsRegion Interval.Has at ha
  unfold slotAt
  split at ha <;> rename_i hf <;> simp [hf] at ha ⊢ <;> omega

/-- A word of the program in a frame is in the space of the frame, outside its free space, and
holds no saved pointer. -/
theorem Frame.Fits.owns (h : f.Fits (spaceOf size older)) (hwest : f.west = westOf older)
    (hblocks : ∀ b ∈ f.blocks, (span b).Inside (f.allocRegion (boundOf size older)))
    (howns : f.Owns a) : (spaceOf size older).Has a ∧ ¬ f.free.Has a ∧ ∀ p, f.slotAt p ≠ a := by
  -- The stack and the allocations are parts of their own, apart from the slots.
  have hother : ∀ r ∈ [f.stackRegion, f.allocRegion (boundOf size older)],
      r.Has a → (spaceOf size older).Has a ∧ ¬ f.free.Has a ∧ ∀ p, f.slotAt p ≠ a := by
    intro r hr ha
    obtain ⟨hinside, hfree⟩ := h.parts hwest r (.tail _ hr)
    exact ⟨hinside.has ha, hfree.not_has ha, fun p =>
      Interval.ne_of_pairwise h.pairwise hr (slotAt_mem h p) ha⟩
  rcases howns with ha | ha | ⟨b, hb, ha⟩
  · obtain ⟨hinside, hfree⟩ := h.parts hwest _ (.head _)
    have ha' := f.locals_inside.has ha
    exact ⟨hinside.has ha', hfree.not_has ha', slotAt_ne_of_locals ha⟩
  · exact hother _ (.head _) ha
  · exact hother _ (.tail _ (.head _)) ((hblocks b hb).has ha)

/-- A word of the program holds no saved pointer, and is not in the space for the next frame. -/
theorem Nested.owns (h : Nested size older) (hblocks : BlocksFit size older)
    (howns : ∃ f ∈ older, f.Owns a) :
    ¬ (spaceOf size older).Has a ∧ ∀ f ∈ older, ∀ p, f.slotAt p ≠ a := by
  induction older with
  | nil => obtain ⟨f, hf, -⟩ := howns; cases hf
  | cons g older ih =>
    obtain ⟨hwest, hfits, hrest⟩ := h
    obtain ⟨f, hf, howns⟩ := howns
    rcases mem_cons.1 hf with rfl | hf
    · obtain ⟨hspace, hfree, hslots⟩ := hfits.owns hwest hblocks.1 howns
      exact ⟨hfree, forall_mem_cons.2 ⟨hslots, hrest.slotAt_ne hspace⟩⟩
    obtain ⟨hspace, hslots⟩ := ih hrest hblocks.2.2 ⟨f, hf, howns⟩
    refine ⟨fun ha => hspace (hfits.free_inside.has ha), forall_mem_cons.2 ⟨?_, hslots⟩⟩
    intro p heq
    have hslot := slotAt_mem hfits p
    have hinside := (hfits.parts hwest _ mem_cons_self).1
    exact hspace (heq ▸ hinside.has hslot)

end Owns

/-- Where the pointers of the frame before are saved. -/
def Live.savedAt (l : Live) : Saved → Nat := if l.pc then l.cur.copySlotAt else l.cur.slotAt

/-- The code and the program's view agree, and so do the saved pointers. -/
structure Tracks (s : NockStack) (l : Live) : Prop where
  start : 0 < s.start
  arena : s.start + 8 * s.size ≤ 2 ^ 64
  pc : s.pc = l.pc
  frame : s.frameOffset = l.cur.frame
  stack : s.stackOffset = l.cur.stack
  alloc : s.allocOffset = l.cur.alloc
  fits : l.Fits s.size
  saved : ∀ g ∈ l.older.head?, SavedAt s l.savedAt g
  chain : SavedChain s l.older

namespace Live.Fits

variable {size : Nat} {l : Live} {a : Nat}

theorem savedAt_mem (h : l.Fits size) (p : Saved) : (spaceOf size l.older).Has (l.savedAt p) := by
  have hcur := h.cur
  unfold savedAt
  split_ifs at hcur with hpc
  · rw [if_pos hpc]
    exact (hcur.2.parts h.west _ mem_cons_self).has (copySlotAt_mem hcur.2 p)
  · rw [if_neg hpc]
    exact (hcur.parts h.west _ mem_cons_self).1.has (slotAt_mem hcur p)

/-- No word of the program holds a saved pointer. -/
theorem owns (h : l.Fits size) (howns : l.Owns a) :
    (∀ p, l.savedAt p ≠ a) ∧ ∀ f ∈ l.older, ∀ p, f.slotAt p ≠ a := by
  have hcur := h.cur
  rcases howns with howns | howns
  · unfold savedAt
    split_ifs at hcur with hpc
    · rw [if_pos hpc] at howns ⊢
      have hother : ∀ r ∈ [l.cur.copyRegion, l.cur.allocRegion (boundOf size l.older)], r.Has a →
          (∀ p, l.cur.copySlotAt p ≠ a) ∧ ∀ f ∈ l.older, ∀ p, f.slotAt p ≠ a := by
        intro r hr ha
        refine ⟨fun p => ?_, h.older.slotAt_ne ((hcur.2.parts h.west r (.tail _ hr)).has ha)⟩
        exact Interval.ne_of_pairwise (l.cur.copying_pairwise _) hr (copySlotAt_mem hcur.2 p) ha
      rcases howns with ha | ⟨b, hb, ha⟩
      · exact hother _ (.head _) ha
      · exact hother _ (.tail _ (.head _)) ((h.blocks.1 b hb).has ha)
    · rw [if_neg hpc] at howns ⊢
      obtain ⟨hspace, -, hslots⟩ := hcur.owns h.west h.blocks.1 howns
      exact ⟨hslots, h.older.slotAt_ne hspace⟩
  · obtain ⟨hspace, hslots⟩ := h.older.owns h.blocks.2.2 howns
    exact ⟨fun p heq => hspace (heq ▸ h.savedAt_mem p), hslots⟩

end Live.Fits

/-! ### Reading the saved pointers back -/

theorem NockStack.offsetOf_derivePtr {s : NockStack} (hstart : 0 < s.start)
    (harena : s.start + 8 * s.size ≤ 2 ^ 64) {offset : Nat} (h : offset ≤ s.size) :
    s.offsetOf (s.derivePtr offset) = offset := by
  unfold offsetOf derivePtr
  have hsub : s.start + 8 * offset + 2 ^ 64 - s.start = 8 * offset + 2 ^ 64 := by omega
  omega

namespace Tracks

variable {s : NockStack} {l : Live}

/-- The code knows a west frame from an east frame. -/
theorem isWest (h : Tracks s l) : s.isWest = l.cur.west := by
  have hcur := h.fits.cur
  unfold NockStack.isWest
  rw [h.stack, h.alloc]
  unfold Frame.Fits Frame.FitsCopying at hcur
  cases hpc : l.pc <;> cases hwest : l.cur.west <;> simp [hpc, hwest] at hcur ⊢ <;> omega

theorem prevPointerPointer (h : Tracks s l) (p : Saved) : s.prevPointerPointer p = l.savedAt p := by
  unfold NockStack.prevPointerPointer NockStack.slotOffset NockStack.freeSlotOffset savedAt
  rw [h.isWest, h.pc, h.frame, h.alloc]
  cases l.pc <;> rfl

variable {g : Frame} {older : List Frame}

/-- The saved pointers are those of the frame before. -/
theorem prevPointer (h : Tracks s l) (hg : l.older = g :: older)
    (p : Saved) : s.prevPointer p = s.derivePtr (g.pointer p) := by
  unfold NockStack.prevPointer
  rw [h.prevPointerPointer]
  refine h.saved g ?_ p
  rw [hg]
  rfl

theorem offsetOf_prevPointer (h : Tracks s l)
    (hg : l.older = g :: older) (p : Saved) : s.offsetOf (s.prevPointer p) = g.pointer p := by
  have hnested := h.fits.older
  rw [hg] at hnested
  rw [h.prevPointer hg]
  refine offsetOf_derivePtr h.start h.arena ?_
  exact Nat.le_trans (pointer_le hnested.2.1 p) hnested.2.2.space_le

theorem framePop (h : Tracks s l) (hg : l.older = g :: older) :
    s.framePop = some { s with
      frameOffset := g.frame, stackOffset := g.stack, allocOffset := g.alloc, pc := false } := by
  have hpos : ∀ p, s.prevPointer p ≠ 0 := by
    intro p
    rw [h.prevPointer hg, derivePtr]
    have := h.start
    omega
  unfold NockStack.framePop
  rw [if_neg (by simp [hpos]), h.offsetOf_prevPointer hg, h.offsetOf_prevPointer hg,
    h.offsetOf_prevPointer hg]
  rfl

theorem sound (h : Tracks s l) : Sound s l where
  pc := h.pc
  frame := h.frame
  stack := h.stack
  alloc := h.alloc
  regions := h.fits.regions_pairwise
  arena := h.fits.regions_le
  blocks := h.fits.blocks_pairwise
  restores := fun _ _ hg => ⟨_, h.framePop hg, rfl, rfl, rfl, rfl⟩

/-! ### One step -/

theorem step_store (h : Tracks s l) {offset : Nat} (howns : l.Owns offset) (word : Nat) :
    Tracks (s.write offset word) l := by
  obtain ⟨hsaved, hslots⟩ := h.fits.owns howns
  exact { h with
    saved := fun g hg => (h.saved g hg).write hsaved
    chain := h.chain.write hslots }

/-- The frame before is read back from the slots, where nothing has been written since. -/
theorem step_framePop (h : Tracks s l) (hg : l.older = g :: older)
    {s' : NockStack} (hs : s.framePop = some s') : Tracks s' ⟨false, g, older⟩ := by
  rw [h.framePop hg, some.injEq] at hs
  subst hs
  have hnested := h.fits.older
  have hchain := h.chain
  have hblocks := h.fits.blocks.2
  rw [hg] at hnested hchain hblocks
  refine { h with pc := rfl, frame := rfl, stack := rfl, alloc := rfl, fits := ?_, saved := ?_,
                  chain := ?_ }
  · exact ⟨hnested.1, hnested.2.1, hnested.2.2, hblocks.2⟩
  · intro g' hg'
    cases older with
    | nil => cases hg'
    | cons g1 older =>
      obtain rfl : g1 = g' := by simpa using hg'
      exact hchain.1
  · cases older with
    | nil => trivial
    | cons g1 older => exact SavedChain.congr hchain.2 (fun _ _ _ => rfl) rfl

/-- The lightweight stack ends where the space for it does. -/
theorem limitOffset (h : Tracks s l) :
    s.limitOffset = if l.pc then (if l.cur.west then (spaceOf s.size l.older).1
      else (spaceOf s.size l.older).2) else l.cur.alloc := by
  have hcur := h.fits.cur
  have hwest := h.fits.west
  unfold NockStack.limitOffset
  rw [h.pc, h.alloc]
  cases hpc : l.pc with
  | false => simp
  | true =>
    rw [hpc] at hcur
    cases holder : l.older with
    | nil => exact absurd holder hcur.1
    | cons g older =>
      rw [holder] at hwest
      simp only [if_true, prevAllocOffset]
      rw [h.offsetOf_prevPointer holder, hwest]
      cases hg : g.west <;> simp [westOf, spaceOf, free, pointer, hg]

theorem stackIsWest (h : Tracks s l) : s.stackIsWest = (l.cur.west != l.pc) := by
  unfold NockStack.stackIsWest
  rw [h.isWest, h.pc]
  cases l.cur.west <;> cases l.pc <;> rfl

/-- The lightweight stack may move as long as the frame still fits. -/
theorem moveStack (h : Tracks s l) {outward : Bool} {words : Nat}
    (hfits : if l.pc then ((l.moveStack outward words).cur).FitsCopying (spaceOf s.size l.older)
      else ((l.moveStack outward words).cur).Fits (spaceOf s.size l.older)) :
    Tracks { s with stackOffset := (l.moveStack outward words).cur.stack }
      (l.moveStack outward words) := by
  refine { h with stack := rfl, fits := ⟨h.fits.west, ?_, h.fits.older, h.fits.blocks⟩,
                  chain := SavedChain.congr h.chain (fun _ _ _ => rfl) rfl }
  have hcur := h.fits.cur
  show if l.pc then l.older ≠ [] ∧ _ else _
  split_ifs at hcur with hpc
  · rw [if_pos hpc] at hfits ⊢
    exact ⟨hcur.1, hfits⟩
  · rw [if_neg hpc] at hfits ⊢
    exact hfits

end Tracks

theorem NockStack.push_eq_some {s s' : NockStack} {words ptr : Nat}
    (h : s.push words = some (ptr, s')) : if s.stackIsWest then
      s.stackOffset + words ≤ s.limitOffset ∧ s' = { s with stackOffset := s.stackOffset + words }
    else words ≤ s.stackOffset ∧ s.limitOffset ≤ s.stackOffset - words ∧
      s' = { s with stackOffset := s.stackOffset - words } := by
  unfold push pushWest pushEast at h
  split_ifs at h with hwest
  · simp [bind_eq_some_iff, guard_eq_some'] at h
    rw [if_pos hwest]
    exact ⟨h.2.1, h.2.2.2.symm⟩
  · simp [bind_eq_some_iff, guard_eq_some'] at h
    rw [if_neg hwest]
    exact ⟨h.2.1, h.2.2.1, h.2.2.2.2.symm⟩

theorem NockStack.pop_eq_some {s s' : NockStack} {words : Nat} (h : s.pop words = some s') :
    s' = { s with stackOffset :=
      if s.stackIsWest then s.stackOffset - words else s.stackOffset + words } := by
  unfold pop popWest popEast at h
  split_ifs at h with hwest
  · simp [bind_eq_some_iff, guard_eq_some'] at h
    rw [if_pos hwest]
    exact h.2.symm
  · simp [bind_eq_some_iff, guard_eq_some'] at h
    rw [if_neg hwest]
    exact h.2.symm

namespace Tracks

variable {s s' : NockStack} {l : Live} {words ptr : Nat}

theorem step_push (h : Tracks s l) (hspare : Spare l (.push words))
    (hs : s.push words = some (ptr, s')) : Tracks s' (l.moveStack true words) := by
  have hpush := push_eq_some hs
  have hcur := h.fits.cur
  rw [h.stackIsWest, h.limitOffset, h.stack] at hpush
  have hs' : s' = { s with stackOffset := (l.moveStack true words).cur.stack } := by
    unfold Live.moveStack
    split at hpush
    case isTrue hout => rw [hpush.2, hout, if_pos rfl]
    case isFalse hout => rw [hpush.2.2, if_neg hout]
  rw [hs']
  refine h.moveStack ?_
  unfold Spare at hspare
  unfold Frame.Fits Frame.FitsCopying at hcur ⊢
  unfold Live.moveStack
  cases hpc : l.pc <;> cases hwest : l.cur.west <;>
    simp [hpc, hwest] at hcur hpush hspare ⊢ <;> omega

theorem step_pop (h : Tracks s l) (hdepth : words ≤ l.depth) (hs : s.pop words = some s') :
    Tracks s' (l.moveStack false words) := by
  have hpop := pop_eq_some hs
  have hcur := h.fits.cur
  rw [h.stackIsWest, h.stack] at hpop
  have hs' : s' = { s with stackOffset := (l.moveStack false words).cur.stack } := by
    rw [hpop]
    unfold Live.moveStack
    cases l.cur.west <;> cases l.pc <;> rfl
  rw [hs']
  refine h.moveStack ?_
  unfold depth copyRegion copyBase stackRegion at hdepth
  unfold Frame.Fits Frame.FitsCopying at hcur ⊢
  unfold Live.moveStack
  cases hpc : l.pc <;> cases hwest : l.cur.west <;>
    simp [hpc, hwest] at hcur hdepth ⊢ <;> omega

end Tracks

/-! ### Allocation -/

theorem NockStack.alloc_eq_some {s s' : NockStack} {words ptr : Nat}
    (h : s.alloc words = some (ptr, s')) :
    if s.isWest then words ≤ s.allocOffset ∧ s.stackOffset ≤ s.allocOffset - words ∧
      ptr = s.allocOffset - words ∧
      s' = { s with leastSpace := s'.leastSpace, allocOffset := s.allocOffset - words }
    else s.allocOffset + words ≤ s.stackOffset ∧ ptr = s.allocOffset ∧
      s' = { s with leastSpace := s'.leastSpace, allocOffset := s.allocOffset + words } := by
  unfold alloc rawAllocWest rawAllocEast at h
  split_ifs at h with hwest
  · simp [bind_eq_some_iff, guard_eq_some'] at h
    obtain ⟨-, -, hwords, hstack, hptr, rfl⟩ := h
    rw [if_pos hwest]
    exact ⟨hwords, hstack, hptr.symm, rfl⟩
  simp [bind_eq_some_iff, guard_eq_some'] at h
  obtain ⟨-, -, hstack, -, hptr, rfl⟩ := h
  rw [if_neg hwest]
  exact ⟨hstack, hptr.symm, rfl⟩

section Allocates

variable {size : Nat} {f : Frame} {older : List Frame} {words ptr : Nat}

/-- A block between the allocations and the free space is one more block of the frame. -/
theorem BlocksFit.allocates (h : BlocksFit size (f :: older))
    (hbound : if f.west then f.alloc ≤ boundOf size older else boundOf size older ≤ f.alloc)
    (hptr : if f.west then words ≤ f.alloc ∧ ptr = f.alloc - words else ptr = f.alloc) :
    BlocksFit size (f.allocates ptr words :: older) := by
  obtain ⟨hinside, hapart, hrest⟩ := h
  have hgrow : (f.allocRegion (boundOf size older)).Inside
      ((f.allocates ptr words).allocRegion (boundOf size older)) := by
    unfold Frame.allocRegion Frame.allocates Interval.Inside
    cases hf : f.west <;> simp
  have hnew : (span (ptr, words)).Inside
        ((f.allocates ptr words).allocRegion (boundOf size older)) ∧
      (span (ptr, words)).Apart (f.allocRegion (boundOf size older)) := by
    unfold Frame.allocRegion Frame.allocates Interval.Inside Interval.Apart Frame.span
    cases hf : f.west <;> simp [hf] at hbound hptr ⊢ <;> omega
  refine ⟨forall_mem_cons.2 ⟨hnew.1, fun b hb => (hinside b hb).trans hgrow⟩, ?_, hrest⟩
  refine pairwise_cons.2 ⟨?_, hapart⟩
  intro x hx
  obtain ⟨b, hb, rfl⟩ := mem_map.1 hx
  exact (hnew.2.symm.of_inside (hinside b hb)).symm

/-- The allocations of a frame end on the far side of its space. -/
theorem Frame.Fits.alloc_bound (h : f.Fits (spaceOf size older)) (hwest : f.west = westOf older) :
    if f.west then f.alloc ≤ boundOf size older else boundOf size older ≤ f.alloc := by
  unfold Frame.Fits at h
  rw [boundOf_eq, ← hwest]
  cases hf : f.west <;> simp [hf] at h ⊢ <;> omega

end Allocates

namespace Tracks

variable {s s' : NockStack} {l : Live} {words ptr : Nat}

/-- An allocation moves the allocation pointer over a part of the free space. -/
theorem step_alloc (h : Tracks s l) (hspare : Spare l (.alloc words)) (hpc : l.pc = false)
    (hs : s.alloc words = some (ptr, s')) :
    Tracks s' { l with cur := l.cur.allocates ptr words } := by
  have halloc := alloc_eq_some hs
  have hcur := h.fits.cur
  rw [h.isWest, h.stack, h.alloc] at halloc
  simp only [hpc, false_eq_true, if_false] at hcur
  have hs' : s' = { s with
      leastSpace := s'.leastSpace, allocOffset := (l.cur.allocates ptr words).alloc } := by
    unfold allocates
    rw [h.stack]
    split_ifs at halloc with hwest
    · rw [if_pos hwest]; exact halloc.2.2.2
    · rw [if_neg hwest]; exact halloc.2.2
  have hptr : if l.cur.west then words ≤ l.cur.alloc ∧ ptr = l.cur.alloc - words
      else ptr = l.cur.alloc := by
    split_ifs at halloc with hwest
    · rw [if_pos hwest]; exact ⟨halloc.1, halloc.2.2.1⟩
    · rw [if_neg hwest]; exact halloc.2.1
  have hfits : (l.cur.allocates ptr words).Fits (spaceOf s.size l.older) := by
    unfold Spare at hspare
    unfold Frame.Fits at hcur ⊢
    unfold allocates
    cases hwest : l.cur.west <;> simp [hpc, hwest] at hcur halloc hspare ⊢ <;> omega
  rw [hs']
  refine { h with alloc := rfl, fits := ?_, saved := ?_,
                  chain := SavedChain.congr h.chain (fun _ _ _ => rfl) rfl }
  · refine ⟨h.fits.west, ?_, h.fits.older,
      h.fits.blocks.allocates (hcur.alloc_bound h.fits.west) hptr⟩
    simp only [hpc, false_eq_true, if_false]
    exact hfits
  · have hsaved := h.saved
    unfold savedAt at hsaved ⊢
    simp only [hpc, false_eq_true, if_false] at hsaved ⊢
    exact hsaved

end Tracks

/-! ### Saving the pointers -/

/-- Three pointers written to their slots. -/
def NockStack.save (s : NockStack) (at_ word : Saved → Nat) : NockStack :=
  ((s.write (at_ .frame) (word .frame)).write (at_ .stack) (word .stack)).write
    (at_ .alloc) (word .alloc)

theorem NockStack.save_mem {s : NockStack} {at_ word : Saved → Nat}
    (hinj : Function.Injective at_) (p : Saved) : (s.save at_ word).mem (at_ p) = word p := by
  have hne : ∀ p q, p ≠ q → at_ p ≠ at_ q := fun p q hpq heq => hpq (hinj heq)
  cases p <;> simp [save, write, hne]

theorem SavedChain.save {s : NockStack} (h : SavedChain s fs)
    {at_ word : Saved → Nat} (ha : ∀ f ∈ fs, ∀ p q, f.slotAt p ≠ at_ q) :
    SavedChain (s.save at_ word) fs :=
  ((h.write fun f hf p => ha f hf p _).write fun f hf p => ha f hf p _).write
    fun f hf p => ha f hf p _

namespace Frame

theorem slotAt_injective {f : Frame} (h : f.Fits x) : Function.Injective f.slotAt := by
  intro p q heq
  unfold Fits reserved at h
  unfold slotAt at heq
  cases hf : f.west <;> cases p <;> cases q <;> simp [hf, Saved.slot] at h heq ⊢ <;> omega

theorem copySlotAt_injective {f : Frame} (h : f.FitsCopying x) :
    Function.Injective f.copySlotAt := by
  intro p q heq
  unfold FitsCopying reserved at h
  unfold copySlotAt at heq
  cases hf : f.west <;> cases p <;> cases q <;> simp [hf, Saved.slot] at h heq ⊢ <;> omega

end Frame

namespace NockStack

variable {s s' : NockStack} {numLocals words : Nat}

/-- The free space has room. -/
def Room (s : NockStack) (words : Nat) : Prop :=
  if s.isWest then words ≤ s.allocOffset ∧ s.stackOffset ≤ s.allocOffset - words
  else s.allocOffset + words ≤ s.stackOffset

/-- The end of that room, next to the allocations. -/
def roomOffset (s : NockStack) (words : Nat) : Nat :=
  if s.isWest then s.allocOffset - words else s.allocOffset + words

theorem room_of_allocWouldOom {u : Unit} (h : s.allocWouldOom .framePush words = some u) :
    s.Room words := by
  unfold allocWouldOom allocWouldOom_ at h
  unfold Room
  cases hwest : s.isWest <;>
    simp [hwest, bind_eq_some_iff, guard_eq_some'] at h ⊢
  · exact h.2
  · exact h.2

/-- The registers of the frame that `frame_push` makes. -/
def moved (s : NockStack) (frameOffset : Nat) : NockStack :=
  { s with frameOffset, allocOffset := s.stackOffset, stackOffset := frameOffset }

theorem framePush_eq_some (h : s.framePush numLocals = some s') :
    s.Room (numLocals + reserved) ∧
    s' = (s.moved (s.roomOffset (numLocals + reserved))).save
      (fun p => (s.moved (s.roomOffset (numLocals + reserved))).slotOffset p.slot)
      (fun | .frame => s.derivePtr s.frameOffset | .stack => s.derivePtr s.stackOffset
           | .alloc => s.derivePtr s.allocOffset) := by
  unfold framePush at h
  simp only [bind_eq_bind, bind_eq_some_iff] at h
  obtain ⟨-, -, u, hroom, hs⟩ := h
  exact ⟨room_of_allocWouldOom hroom, (some.inj hs).symm⟩

theorem preCopy_room (hpc : s.pc = false) (h : s.preCopy = some s') :
    s.Room (if s.isWest then reserved + 1 else reserved) := by
  unfold preCopy at h
  rw [if_neg (by rw [hpc]; decide)] at h
  simp only [bind_eq_bind, bind_eq_some_iff] at h
  obtain ⟨u, hroom, -⟩ := h
  exact room_of_allocWouldOom hroom

/-- `pre_copy` of a frame that is not being cleaned up yet. The pointers are copied one after the
other, so that a slot among the copies would be read back changed. -/
theorem preCopy_eq_some (hpc : s.pc = false) (h : s.preCopy = some s')
    (hne : ∀ p q : Saved, s.freeSlotOffset p.slot ≠ s.slotOffset q.slot) :
    s' = { s.save (fun p => s.freeSlotOffset p.slot) (fun p => s.mem (s.slotOffset p.slot)) with
      pc := true
      stackOffset := s.roomOffset (if s.isWest then reserved + 1 else reserved) } := by
  unfold preCopy at h
  rw [if_neg (by rw [hpc]; decide)] at h
  simp only [bind_eq_bind, bind_eq_some_iff] at h
  obtain ⟨-, -, hs⟩ := h
  cases hs
  have hwrite : ∀ (t : NockStack) (p q : Saved) (w : Nat),
      (t.write (s.freeSlotOffset p.slot) w).mem (s.slotOffset q.slot) =
        t.mem (s.slotOffset q.slot) :=
    fun t p q w => update_of_ne (hne p q).symm _ _
  have hslot : ∀ (t : NockStack) (a w n : Nat), (t.write a w).slotOffset n = t.slotOffset n :=
    fun _ _ _ _ => rfl
  have hfree : ∀ (t : NockStack) (a w n : Nat),
      (t.write a w).freeSlotOffset n = t.freeSlotOffset n := fun _ _ _ _ => rfl
  simp only [hslot, hfree, hwrite]
  rfl

end NockStack

namespace Tracks

variable {s s' : NockStack} {l : Live} {words ptr : Nat}

/-- The new frame fits in the room. -/
theorem next_fits (h : Tracks s l) {numLocals : Nat}
    (hspare : Spare l (.framePush numLocals)) (hroom : s.Room (numLocals + reserved)) :
    (l.cur.next numLocals).Fits l.cur.free := by
  unfold NockStack.Room at hroom
  rw [h.isWest, h.stack, h.alloc] at hroom
  unfold Spare at hspare
  unfold Frame.Fits Frame.next free
  cases hwest : l.cur.west <;> simp [hwest] at hroom hspare ⊢ <;> omega

/-- A new frame lies in the free space of the current one, and saves its pointers there. -/
theorem step_framePush (h : Tracks s l) (hpc : l.pc = false) {numLocals : Nat}
    (hspare : Spare l (.framePush numLocals)) (hs : s.framePush numLocals = some s') :
    Tracks s' ⟨false, l.cur.next numLocals, l.cur :: l.older⟩ := by
  obtain ⟨hroom, rfl⟩ := framePush_eq_some hs
  have hfits := h.next_fits hspare hroom
  have hcur := h.fits.cur
  simp only [hpc, false_eq_true, if_false] at hcur
  have hoffset : s.roomOffset (numLocals + reserved) = (l.cur.next numLocals).frame := by
    unfold roomOffset Frame.next
    rw [h.isWest, h.alloc]
  have hslot : (fun p => (s.moved (s.roomOffset (numLocals + reserved))).slotOffset p.slot) =
      (l.cur.next numLocals).slotAt := by
    funext p
    unfold NockStack.slotOffset NockStack.isWest NockStack.moved slotAt
    rw [hoffset, h.stack]
    -- The code tells the direction from the two pointers, rightly as the frame fits.
    have hwest : decide ((l.cur.next numLocals).frame < l.cur.stack) =
        (l.cur.next numLocals).west := by
      unfold Frame.Fits at hfits
      have halloc : (l.cur.next numLocals).alloc = l.cur.stack := rfl
      cases hw : (l.cur.next numLocals).west <;> simp [hw] at hfits ⊢ <;> omega
    rw [hwest]
  -- What the current frame has saved becomes a link of the chain.
  have hchain : SavedChain s (l.cur :: l.older) := by
    cases holder : l.older with
    | nil => trivial
    | cons g older =>
      have hsaved := h.saved g (by rw [holder]; rfl)
      have hrest := h.chain
      unfold savedAt at hsaved
      rw [hpc] at hsaved
      rw [holder] at hrest
      exact ⟨hsaved, hrest⟩
  have hnested : Nested s.size (l.cur :: l.older) := ⟨h.fits.west, hcur, h.fits.older⟩
  rw [hslot, hoffset]
  refine { h with pc := h.pc.trans hpc, frame := rfl, stack := rfl,
                  alloc := h.stack, fits := ⟨rfl, hfits, hnested, ?_⟩, saved := ?_, chain := ?_ }
  · refine ⟨fun b hb => absurd hb not_mem_nil, .nil, h.fits.blocks⟩
  · intro g hg p
    obtain rfl : l.cur = g := by simpa using hg
    show (save _ _ _).mem ((l.cur.next numLocals).slotAt p) = _
    rw [save_mem (slotAt_injective hfits)]
    cases p
    · exact congrArg s.derivePtr h.frame
    · exact congrArg s.derivePtr h.stack
    · exact congrArg s.derivePtr h.alloc
  · have hmoved : SavedChain (s.moved (l.cur.next numLocals).frame) (l.cur :: l.older) :=
      SavedChain.congr hchain (fun _ _ _ => rfl) rfl
    refine hmoved.save fun f hf p q => ?_
    refine hnested.slotAt_ne ?_ f hf p
    have hinside : (l.cur.next numLocals).slotsRegion.Inside (spaceOf s.size (l.cur :: l.older)) :=
      (Frame.Fits.parts hfits rfl _ mem_cons_self).1
    exact hinside.has (slotAt_mem hfits q)

/-- What is left of the frame once its pointers have been moved fits where the frame did. -/
theorem copying_fits (h : Tracks s l) (hpc : l.pc = false)
    (hroom : s.Room (if s.isWest then reserved + 1 else reserved)) :
    l.copying.cur.FitsCopying (spaceOf s.size l.older) ∧
      ∀ p, l.cur.free.Has (l.cur.copySlotAt p) := by
  have hcur := h.fits.cur
  unfold NockStack.Room at hroom
  rw [h.isWest, h.stack, h.alloc] at hroom
  simp only [hpc, false_eq_true, if_false] at hcur
  unfold Frame.Fits at hcur
  unfold Frame.FitsCopying copying copyBase free copySlotAt Interval.Has
  simp only [hpc, false_eq_true, if_false]
  constructor
  · cases hwest : l.cur.west <;> simp [hwest] at hcur hroom ⊢ <;> omega
  · intro p
    have hp := slot_lt p
    cases hwest : l.cur.west <;> simp [hwest] at hcur hroom ⊢ <;> omega

/-- `pre_copy` moves the saved pointers next to the allocations, where nothing was. -/
theorem preCopy (h : Tracks s l) (holder : l.older ≠ []) (hs : s.preCopy = some s') :
    Tracks s' l.copying := by
  cases hpc : l.pc with
  | true =>
    unfold NockStack.preCopy at hs
    rw [if_pos (h.pc.trans hpc), some.injEq] at hs
    unfold copying
    rwa [if_pos hpc, ← hs]
  | false =>
    have hcur := h.fits.cur
    simp only [hpc, false_eq_true, if_false] at hcur
    have hslot : ∀ p : Saved, s.slotOffset p.slot = l.cur.slotAt p := by
      intro p
      unfold slotOffset slotAt
      rw [h.isWest, h.frame]
    have hfree : ∀ p : Saved, s.freeSlotOffset p.slot = l.cur.copySlotAt p := by
      intro p
      unfold freeSlotOffset copySlotAt
      rw [h.isWest, h.alloc]
    obtain ⟨hfits, hmem⟩ := h.copying_fits hpc (preCopy_room (h.pc.trans hpc) hs)
    have hparts := hcur.parts h.fits.west _ (.head _)
    -- The copies go to the free space, so no slot is overwritten before it is read.
    have hne : ∀ p q, l.cur.copySlotAt p ≠ l.cur.slotAt q := fun p q heq =>
      hparts.2.not_has (slotAt_mem hcur q) (heq ▸ hmem p)
    have hs' := preCopy_eq_some (h.pc.trans hpc) hs
      (fun p q => by rw [hfree, hslot]; exact hne p q)
    simp only [hslot, hfree] at hs'
    have hcopying : l.copying =
        { l with pc := true, cur := { l.cur with stack := l.cur.copyBase } } := by
      unfold copying
      rw [if_neg (by rw [hpc]; decide)]
    rw [hcopying] at hfits ⊢
    rw [hs']
    refine { h with pc := rfl, stack := ?_, saved := ?_, chain := ?_,
                    fits := ⟨h.fits.west, ⟨holder, hfits⟩, h.fits.older, h.fits.blocks⟩ }
    · show s.roomOffset _ = l.cur.copyBase
      unfold roomOffset copyBase
      rw [h.isWest, h.alloc]
      cases l.cur.west <;> rfl
    · intro g hg p
      have hsaved := h.saved g hg p
      unfold savedAt at hsaved
      simp only [hpc, false_eq_true, if_false] at hsaved
      show (s.save l.cur.copySlotAt fun p => s.mem (l.cur.slotAt p)).mem (l.cur.copySlotAt p) =
        s.derivePtr (g.pointer p)
      have hinj : Function.Injective l.cur.copySlotAt :=
        copySlotAt_injective (f := { l.cur with stack := l.cur.copyBase }) hfits
      rwa [save_mem hinj]
    · have hsave : SavedChain (s.save l.cur.copySlotAt fun p => s.mem (l.cur.slotAt p)) l.older :=
        h.chain.save fun f hf p q =>
          h.fits.older.slotAt_ne (hcur.free_inside.has (hmem q)) f hf p
      exact SavedChain.congr hsave (fun _ _ _ => rfl) rfl

end Tracks

section Preserve

variable {size : Nat} {f g : Frame} {older : List Frame} {words ptr : Nat}

/-- Room for a copy between the allocations of the frame before and what is left of the current
frame. -/
def Frame.MakesRoom (f g : Frame) (words ptr : Nat) : Prop :=
  if f.west then g.alloc + words ≤ f.stack ∧ ptr = g.alloc
  else words ≤ g.alloc ∧ f.stack ≤ g.alloc - words ∧ ptr = g.alloc - words

theorem Frame.MakesRoom.fits (h : f.MakesRoom g words ptr) (hwest : f.west = !g.west)
    (hf : f.FitsCopying g.free) (hg : g.Fits x) :
    f.FitsCopying (g.allocates ptr words).free ∧ (g.allocates ptr words).Fits x := by
  unfold Frame.MakesRoom at h
  unfold Frame.FitsCopying free reserved at hf
  unfold Frame.Fits reserved at hg
  unfold Frame.FitsCopying Frame.Fits allocates free reserved
  cases hgw : g.west <;> simp [hgw] at hwest <;> simp [hgw, hwest] at h hf hg ⊢ <;> omega

theorem Frame.MakesRoom.ptr_eq (h : f.MakesRoom g words ptr) (hwest : f.west = !g.west) :
    if g.west then words ≤ g.alloc ∧ ptr = g.alloc - words else ptr = g.alloc := by
  unfold Frame.MakesRoom at h
  cases hgw : g.west <;> simp [hgw] at hwest <;> simp [hwest] at h ⊢ <;> omega

end Preserve

namespace Tracks

variable {s s' : NockStack} {l : Live} {words ptr : Nat} {g : Frame} {older : List Frame}

section

variable (h : Tracks s l)

include h

/-- Room in the frame before, for a frame that is being cleaned up. -/
theorem rawAlloc_eq_some (hg : l.older = g :: older)
    (hs : (if s.isWest then s.rawAllocInPreviousFrameWest words
      else s.rawAllocInPreviousFrameEast words) = some (ptr, s')) : l.cur.MakesRoom g words ptr ∧
      s' = s.write (l.savedAt .alloc) (s.derivePtr (g.allocates ptr words).alloc) := by
  have hprev : s.prevAllocOffset = g.alloc := h.offsetOf_prevPointer hg .alloc
  have hwest := h.fits.west
  rw [hg] at hwest
  unfold rawAllocInPreviousFrameWest rawAllocInPreviousFrameEast
    allocWouldOom_ at hs
  rw [h.isWest, hprev, h.prevPointerPointer, h.stack] at hs
  unfold Frame.MakesRoom allocates
  cases hgw : g.west <;> simp [hgw, westOf] at hwest <;>
    simp [hwest, bind_eq_some_iff, guard_eq_some'] at hs ⊢
  · exact ⟨⟨hs.1.2, hs.2.2.1.symm⟩, hs.2.2.2.symm⟩
  · exact ⟨⟨hs.2.1, hs.1.2.2, hs.2.2.2.1.symm⟩, hs.2.2.2.2.symm⟩

/-- A copy for the frame before, made by a frame that is being cleaned up. -/
theorem makeRoom (hpc : l.pc) (hg : l.older = g :: older)
    (hroom : l.cur.MakesRoom g words ptr) :
    Tracks (s.write (l.savedAt .alloc) (s.derivePtr (g.allocates ptr words).alloc))
      { l with older := g.allocates ptr words :: older } := by
  have hwest := h.fits.west
  have hcur := h.fits.cur
  have holder := h.fits.older
  have hblocks := h.fits.blocks
  have hchain := h.chain
  have hspace := h.fits.savedAt_mem
  simp only [hpc, if_true] at hcur
  rw [hg] at hwest hcur holder hblocks hchain hspace
  obtain ⟨hfits, hgfits⟩ := hroom.fits hwest hcur.2 holder.2.1
  have hptr := hroom.ptr_eq hwest
  refine { h with fits := ?_, saved := ?_, chain := ?_ }
  · refine ⟨hwest, ?_, ⟨holder.1, hgfits, holder.2.2⟩, hblocks.1, hblocks.2.1,
      hblocks.2.2.allocates (holder.2.1.alloc_bound holder.1) hptr⟩
    rw [if_pos hpc]
    exact ⟨cons_ne_nil _ _, hfits⟩
  · intro g' hg' p
    obtain rfl : g.allocates ptr words = g' := by simpa using hg'
    have hinj : Function.Injective l.savedAt := by
      unfold savedAt
      rw [if_pos hpc]
      exact copySlotAt_injective hcur.2
    show update s.mem (l.savedAt .alloc) _ (l.savedAt p) = _
    by_cases hp : p = .alloc
    · rw [hp, update_self]
      rfl
    rw [update_of_ne fun heq => hp (hinj heq)]
    have hsaved := h.saved g (by rw [hg]; rfl) p
    cases p with
    | alloc => exact absurd rfl hp
    | frame | stack => exact hsaved
  · have hwrite : ∀ v, SavedChain (s.write (l.savedAt .alloc) v) (g :: older) := fun v =>
      hchain.write fun f hf p => holder.slotAt_ne (hspace .alloc) f hf p
    cases older with
    | nil => trivial
    | cons g1 older => exact ⟨(hwrite _).1, (hwrite _).2⟩

theorem step_preserve (hg : l.older = g :: older)
    (hs : s.rawAllocInPreviousFrame words = some (ptr, s')) :
    Tracks s' { l.copying with older := g.allocates ptr words :: older } := by
  unfold rawAllocInPreviousFrame at hs
  simp only [bind_eq_bind, bind_eq_some_iff] at hs
  obtain ⟨t, ht, hs⟩ := hs
  have hcopying := h.preCopy (by rw [hg]; exact cons_ne_nil _ _) ht
  have holder : l.copying.older = g :: older := by
    unfold copying
    split <;> exact hg
  have hpc : l.copying.pc := by
    unfold copying
    split_ifs with hpc
    · exact hpc
    · rfl
  obtain ⟨hroom, rfl⟩ := hcopying.rawAlloc_eq_some holder hs
  exact hcopying.makeRoom hpc holder hroom

/-- Every operation in order that leaves a west frame a free word. -/
theorem step {op : Op} {l' : Live} (hspare : Spare l op)
    (hs : s.step op = some (ptr, s')) (hl : l.step ptr op = some l') : Tracks s' l' := by
  -- where the code returns no pointer
  have hmap : ∀ {o : Option NockStack}, o.map (0, ·) = some (ptr, s') → o = some s' := by
    intro o ho
    obtain ⟨t, rfl, heq⟩ := map_eq_some_iff.1 ho
    cases heq
    rfl
  revert hl
  fun_cases l.step ptr op <;> intro hl <;> cases hl
  case case2 hpc => exact h.step_framePush (eq_false_iff.2 hpc) hspare (hmap hs)
  case case3 => exact h.step_push hspare hs
  case case4 hdepth => exact h.step_pop hdepth (hmap hs)
  case case7 hpc => exact h.step_alloc hspare (eq_false_iff.2 hpc) hs
  case case9 holder => exact h.step_preserve holder hs
  case case11 holder => exact h.step_framePop holder (hmap hs)
  case case12 howns =>
    cases hs
    exact h.step_store howns _

theorem stepBoth {op : Op} {y : NockStack × Live} (hspare : Spare l op)
    (hstep : Stack.stepBoth (s, l) op = some y) : Tracks y.1 y.2 := by
  simp only [Stack.stepBoth, bind_eq_bind, bind_eq_some_iff] at hstep
  obtain ⟨⟨ptr, s'⟩, hs, l', hl, hy⟩ := hstep
  cases hy
  exact h.step hspare hs hl

end

theorem run {ops : List Op} {x y : NockStack × Live} (h : Tracks x.1 x.2) (hspares : Spares ops x)
    (hrun : Stack.run ops x = some y) : Tracks y.1 y.2 := by
  induction ops generalizing x with
  | nil =>
    cases hrun
    exact h
  | cons op ops ih =>
    simp only [Stack.run, bind_eq_bind, bind_eq_some_iff] at hrun
    obtain ⟨z, hz, hrun⟩ := hrun
    exact ih (h.stepBoth hspares.1 hz) (hspares.2 z hz) hrun

/-- A new stack has its one frame, if that has a free word. -/
theorem new {start size topSlots : Nat} (hstart : 0 < start) (harena : start + 8 * size ≤ 2 ^ 64)
    (hsize : reserved + topSlots < size) (hnew : new start size topSlots = some s) :
    Tracks s (new size topSlots) := by
  unfold NockStack.new at hnew
  simp only [bind_eq_bind, bind_eq_some_iff] at hnew
  obtain ⟨-, -, hnew⟩ := hnew
  cases hnew
  refine { start := hstart, arena := harena, pc := rfl, frame := rfl, stack := rfl, alloc := rfl,
           fits := ⟨rfl, ?_, trivial, ?_⟩, saved := fun g hg => absurd hg (by simp [Live.new]),
           chain := trivial }
  · refine ⟨Nat.le_add_right _ _, ?_⟩
    simp [Live.new, spaceOf, write, hsize]
  · exact ⟨fun b hb => absurd hb not_mem_nil, .nil, trivial⟩

end Tracks

/-! ### Every run -/

/-- In a run that always leaves a west frame a free word, starting with the first frame, the live
frames stay apart and each is restored as it was left. -/
theorem run_sound {start size topSlots : Nat} {ops : List Op} {s₀ s : NockStack} {l : Live}
    (hstart : 0 < start) (harena : start + 8 * size ≤ 2 ^ 64) (hsize : reserved + topSlots < size)
    (hnew : NockStack.new start size topSlots = some s₀)
    (hspares : Spares ops (s₀, Live.new size topSlots))
    (hrun : run ops (s₀, Live.new size topSlots) = some (s, l)) : Sound s l :=
  ((Tracks.new hstart harena hsize hnew).run hspares hrun).sound

/-- Two frames, a block in each, and a block copied out of the second. -/
theorem run_sound_copied : ∃ s₀ s l, NockStack.new 8 64 0 = some s₀ ∧
    run [.framePush 1, .alloc 2, .push 1, .framePush 1, .alloc 2, .preserve 2, .framePop]
      (s₀, Live.new 64 0) = some (s, l) ∧ Sound s l := by
  have hany : (new 8 64 0).any (fun s₀ =>
      Spares [.framePush 1, .alloc 2, .push 1, .framePush 1, .alloc 2, .preserve 2, .framePop]
        (s₀, new 64 0) ∧
      (run [.framePush 1, .alloc 2, .push 1, .framePush 1, .alloc 2, .preserve 2, .framePop]
        (s₀, new 64 0)).isSome) = true := by
    decide +kernel
  obtain ⟨s₀, hnew, hs₀⟩ := (any_eq_true _ _).1 hany
  obtain ⟨hspares, hrun⟩ := of_decide_eq_true hs₀
  obtain ⟨⟨s, l⟩, hrun⟩ := isSome_iff_exists.1 hrun
  exact ⟨s₀, s, l, hnew, hrun,
    run_sound (by decide) (by decide) (by decide) hnew hspares hrun⟩

/-- An east frame may push a frame that takes all of its free space. That frame is a west frame
with no free word, its saved pointers are written as those of an east frame, over the saved
pointers of the frame before, and popping both frames does not lead back to the first. -/
theorem not_sound_full : ∃ s₀ s l, NockStack.new 8 9 0 = some s₀ ∧
    run [.framePush 0, .framePush 0, .framePop, .framePop] (s₀, Live.new 9 0) = some (s, l) ∧
    ¬ Sound s l := by
  have hany : (new 8 9 0).any (fun s₀ =>
      (run [.framePush 0, .framePush 0, .framePop, .framePop] (s₀, new 9 0)).any
        (fun x => x.1.frameOffset ≠ x.2.cur.frame)) = true := by
    decide +kernel
  obtain ⟨s₀, hnew, hs₀⟩ := (any_eq_true _ _).1 hany
  obtain ⟨⟨s, l⟩, hrun, hframe⟩ := (any_eq_true _ _).1 hs₀
  exact ⟨s₀, s, l, hnew, hrun, fun h => of_decide_eq_true hframe h.frame⟩

end Nockchain.Mem.Stack
