import Nockchain.Mem.Stack

/-!
# `Nockchain.Proofs.Mem.Frames`: frames as the program sees them

The program that uses the stack keeps no memory of it. What it knows is `Live`: the frames it has
pushed, with their pointers, and the blocks it was given in each. `Live.step` says what every
operation means to it and when the operation is in order. Nothing here reads the saved pointers,
so what the program knows can be compared with what the code restores from them.

Every frame lies in the free space of the frame before it (`Nested`), and once a frame is being
cleaned up, what is left of it does (`Frame.FitsCopying`). It follows that the slots, lightweight
stacks and allocations of all live frames are apart (`Live.Fits.parts_pairwise`), and so are the
blocks (`Live.Fits.blocks_pairwise`).

A frame is a west frame because of how it was pushed. The code asks `is_west`, which compares the
pointers, and cannot tell a west frame that has no free word left from an east frame. `Spare` is
the condition that keeps west frames from filling up.
-/

set_option autoImplicit false

namespace Nockchain.Mem.Stack

/-! ### Intervals -/

/-- The words from the first offset up to the second. -/
abbrev Interval := Nat × Nat

/-- No word in common. -/
def Interval.Apart (x y : Interval) : Prop := x.2 ≤ y.1 ∨ y.2 ≤ x.1

/-- Part of another interval. -/
def Interval.Inside (x y : Interval) : Prop := y.1 ≤ x.1 ∧ x.2 ≤ y.2

theorem Interval.Apart.symm {x y : Interval} (h : x.Apart y) : y.Apart x := Or.symm h

theorem Interval.Apart.of_inside {x y z : Interval} (h : y.Apart z) (hx : x.Inside y) :
    x.Apart z := by
  rcases h with h | h
  · exact .inl (Nat.le_trans hx.2 h)
  · exact .inr (Nat.le_trans h hx.1)

theorem Interval.Inside.trans {x y z : Interval} (h : x.Inside y) (h' : y.Inside z) :
    x.Inside z := ⟨Nat.le_trans h'.1 h.1, Nat.le_trans h.2 h'.2⟩

/-- A word of an interval. -/
def Interval.Has (x : Interval) (offset : Nat) : Prop := x.1 ≤ offset ∧ offset < x.2

instance (x : Interval) (offset : Nat) : Decidable (x.Has offset) :=
  inferInstanceAs (Decidable (_ ∧ _))

/-- A word of one of two intervals that are apart is not in the other. -/
theorem Interval.Apart.not_has {x y : Interval} (h : x.Apart y) {a : Nat} (hx : x.Has a) :
    ¬ y.Has a := by
  intro hy
  unfold Has at hx hy
  rcases h with h | h <;> omega

/-- The first of some intervals that are apart has no word of the others. -/
theorem Interval.ne_of_pairwise {x y : Interval} {l : List Interval}
    (h : (x :: l).Pairwise Interval.Apart) (hy : y ∈ l) {a b : Nat} (hx : x.Has b) (ha : y.Has a) :
    b ≠ a := by
  rintro rfl
  exact ((List.pairwise_cons.1 h).1 y hy).not_has hx ha

theorem Interval.Inside.has {x y : Interval} (h : x.Inside y) {a : Nat} (hx : x.Has a) : y.Has a :=
  ⟨Nat.le_trans h.1 hx.1, Nat.lt_of_lt_of_le hx.2 h.2⟩

/-! ### What the program has been given -/

/-- A frame as the program that uses it knows it: its end of the arena, its pointers, the number
of its slots with the reserved ones, and the blocks allocated in it. -/
structure Frame where
  west : Bool
  frame : Nat
  stack : Nat
  alloc : Nat
  slots : Nat
  blocks : List (Nat × Nat)
deriving DecidableEq, Repr

namespace Frame

/-- The free space between the lightweight stack and the allocations. -/
def free (f : Frame) : Interval := if f.west then (f.stack, f.alloc) else (f.alloc, f.stack)

/-- The slots. -/
def slotsRegion (f : Frame) : Interval :=
  if f.west then (f.frame - f.slots, f.frame) else (f.frame, f.frame + f.slots)

/-- The slots that the program may use. -/
def localsRegion (f : Frame) : Interval :=
  if f.west then (f.frame - f.slots, f.frame - reserved)
  else (f.frame + reserved, f.frame + f.slots)

/-- The lightweight stack. -/
def stackRegion (f : Frame) : Interval :=
  if f.west then (f.frame, f.stack) else (f.stack, f.frame)

/-- The allocations, up to the lightweight stack of the frame before or the end of the arena. -/
def allocRegion (f : Frame) (bound : Nat) : Interval :=
  if f.west then (f.alloc, bound) else (bound, f.alloc)

/-- After `pre_copy`: where the pointers of the frame before are saved. -/
def savedRegion (f : Frame) : Interval :=
  if f.west then (f.alloc - reserved, f.alloc) else (f.alloc, f.alloc + reserved)

/-- After `pre_copy`: where the lightweight stack begins. -/
def copyBase (f : Frame) : Nat :=
  if f.west then f.alloc - (reserved + 1) else f.alloc + reserved

/-- After `pre_copy`: the lightweight stack. -/
def copyRegion (f : Frame) : Interval :=
  if f.west then (f.stack, f.copyBase) else (f.copyBase, f.stack)

/-- Moving the allocation pointer over a block. -/
def allocates (f : Frame) (ptr words : Nat) : Frame :=
  { f with
    alloc := if f.west then f.alloc - words else f.alloc + words
    blocks := (ptr, words) :: f.blocks }

/-- A block as an interval. -/
def span (b : Nat × Nat) : Interval := (b.1, b.1 + b.2)

end Frame

/-- The live frames, the current one first, and whether it is being cleaned up. -/
structure Live where
  pc : Bool
  cur : Frame
  older : List Frame
deriving DecidableEq, Repr

/-- Where the allocations of the youngest of some frames end. -/
def boundOf (size : Nat) (older : List Frame) : Nat := (older.head?.map Frame.stack).getD size

/-- The lightweight stacks and the allocations of frames. -/
def regionsOf (size : Nat) : List Frame → List Interval
  | [] => []
  | f :: older => [f.stackRegion, f.allocRegion (boundOf size older)] ++ regionsOf size older

namespace Live

/-- The lightweight stacks and the allocations of all live frames. -/
def regions (size : Nat) (l : Live) : List Interval :=
  [if l.pc then l.cur.copyRegion else l.cur.stackRegion,
    l.cur.allocRegion (boundOf size l.older)] ++ regionsOf size l.older

/-- The blocks of all live frames. -/
def blocks (l : Live) : List (Nat × Nat) := (l.cur :: l.older).flatMap Frame.blocks

/-- How many words the lightweight stack holds. -/
def depth (l : Live) : Nat :=
  if l.pc then (l.cur.copyRegion).2 - l.cur.copyRegion.1
  else l.cur.stackRegion.2 - l.cur.stackRegion.1

/-- The lightweight stack after its pointer moves outward by `words`, or inward. -/
def moveStack (l : Live) (outward : Bool) (words : Nat) : Live :=
  { l with cur := { l.cur with
      stack := if (l.cur.west != l.pc) = outward then l.cur.stack + words
        else l.cur.stack - words } }

end Live

/-! ### Operations -/

/-- What a program does with the stack. `preserve` makes room for a copy in the frame before, and
`store` writes to a word that the program may write to. -/
inductive Op where
  | framePush (numLocals : Nat)
  | push (words : Nat)
  | pop (words : Nat)
  | alloc (words : Nat)
  | preserve (words : Nat)
  | framePop
  | store (offset word : Nat)
deriving DecidableEq, Repr

/-- The code of an operation, with the pointer that it returns. -/
def NockStack.step (s : NockStack) : Op → Option (Nat × NockStack)
  | .framePush numLocals => (s.framePush numLocals).map (0, ·)
  | .push words => s.push words
  | .pop words => (s.pop words).map (0, ·)
  | .alloc words => s.alloc words
  | .preserve words => s.rawAllocInPreviousFrame words
  | .framePop => s.framePop.map (0, ·)
  | .store offset word => some (0, s.write offset word)

/-- The words of a frame that the program may write to: locals, the lightweight stack, blocks. -/
def Frame.Owns (f : Frame) (offset : Nat) : Prop :=
  f.localsRegion.Has offset ∨ f.stackRegion.Has offset ∨ ∃ b ∈ f.blocks, (Frame.span b).Has offset

instance (f : Frame) (offset : Nat) : Decidable (f.Owns offset) :=
  inferInstanceAs (Decidable (_ ∨ _ ∨ _))

/-- The words that the program may write to. A frame that is being cleaned up has lost its locals
and its old lightweight stack. -/
def Live.Owns (l : Live) (offset : Nat) : Prop :=
  (if l.pc then l.cur.copyRegion.Has offset ∨ ∃ b ∈ l.cur.blocks, (Frame.span b).Has offset
    else l.cur.Owns offset) ∨ ∃ f ∈ l.older, f.Owns offset

instance (l : Live) (offset : Nat) : Decidable (l.Owns offset) := by
  unfold Live.Owns
  infer_instance

/-- The frame that `frame_push` makes: at the other end of the free space. -/
def Frame.next (f : Frame) (numLocals : Nat) : Frame :=
  let words := numLocals + reserved
  let frame := if f.west then f.alloc - words else f.alloc + words
  { west := !f.west, frame, stack := frame, alloc := f.stack, slots := words, blocks := [] }

/-- The frame once `pre_copy` has been called. -/
def Live.copying (l : Live) : Live :=
  if l.pc then l else { l with pc := true, cur := { l.cur with stack := l.cur.copyBase } }

/-- What an operation means to the program, given the pointer that it returns. There is no answer
where the operation is out of order: an allocation or a new frame during the cleanup, more popped
than was pushed, a copy or a pop with no frame before, a write to a word that is not the
program's. -/
def Live.step (l : Live) (ptr : Nat) : Op → Option Live
  | .framePush numLocals =>
    if l.pc then none else some ⟨false, l.cur.next numLocals, l.cur :: l.older⟩
  | .push words => some (l.moveStack true words)
  | .pop words => if words ≤ l.depth then some (l.moveStack false words) else none
  | .alloc words => if l.pc then none else some { l with cur := l.cur.allocates ptr words }
  | .preserve words =>
    match l.older with
    | [] => none
    | g :: older => some { l.copying with older := g.allocates ptr words :: older }
  | .framePop =>
    match l.older with
    | [] => none
    | g :: older => some ⟨false, g, older⟩
  | .store offset _ => if l.Owns offset then some l else none

/-- An operation, as the code takes it and as the program sees it. -/
def stepBoth (x : NockStack × Live) (op : Op) : Option (NockStack × Live) := do
  let (ptr, s) ← x.1.step op
  let l ← x.2.step ptr op
  return (s, l)

/-- Operations one after the other. -/
def run : List Op → NockStack × Live → Option (NockStack × Live)
  | [], x => some x
  | op :: ops, x => do
    let x ← stepBoth x op
    run ops x

/-- The frame that a new stack has. -/
def Live.new (size topSlots : Nat) : Live :=
  ⟨false, ⟨true, reserved + topSlots, reserved + topSlots, size, reserved + topSlots, []⟩, []⟩

/-- The operation leaves a west frame a word of free space. -/
def Spare (l : Live) : Op → Prop
  | .framePush numLocals => l.cur.west = false → l.cur.alloc + (numLocals + reserved) < l.cur.stack
  | .push words | .alloc words =>
    l.cur.west = true → l.pc = false → l.cur.stack + words < l.cur.alloc
  | _ => True

instance (l : Live) (op : Op) : Decidable (Spare l op) := by
  unfold Spare
  cases op <;> infer_instance

/-- Every operation of a run leaves a west frame a word of free space. -/
def Spares : List Op → NockStack × Live → Prop
  | [], _ => True
  | op :: ops, x => Spare x.2 op ∧ ∀ y ∈ stepBoth x op, Spares ops y

instance decidableSpares : (ops : List Op) → (x : NockStack × Live) → Decidable (Spares ops x)
  | [], _ => isTrue trivial
  | op :: ops, x =>
    have : ∀ y, Decidable (Spares ops y) := decidableSpares ops
    inferInstanceAs (Decidable (_ ∧ ∀ y ∈ stepBoth x op, Spares ops y))

/-- The code and the program agree on the current frame, nothing overlaps, and `frame_pop` leads
back to the frame before as the program knows it. -/
structure Sound (s : NockStack) (l : Live) : Prop where
  pc : s.pc = l.pc
  frame : s.frameOffset = l.cur.frame
  stack : s.stackOffset = l.cur.stack
  alloc : s.allocOffset = l.cur.alloc
  regions : (l.regions s.size).Pairwise Interval.Apart
  arena : ∀ r ∈ l.regions s.size, r.2 ≤ s.size
  blocks : (l.blocks.map Frame.span).Pairwise Interval.Apart
  restores : ∀ g older, l.older = g :: older → ∃ s', s.framePop = some s' ∧ s'.pc = false ∧
    s'.frameOffset = g.frame ∧ s'.stackOffset = g.stack ∧ s'.allocOffset = g.alloc

/-! ### How frames lie in each other -/

namespace Frame

/-- A frame that is not being cleaned up lies in an interval. -/
def Fits (f : Frame) (x : Interval) : Prop :=
  reserved ≤ f.slots ∧
    if f.west then x.1 + f.slots ≤ f.frame ∧ f.frame ≤ f.stack ∧ f.stack < f.alloc ∧ f.alloc ≤ x.2
    else x.1 ≤ f.alloc ∧ f.alloc ≤ f.stack ∧ f.stack ≤ f.frame ∧ f.frame + f.slots ≤ x.2

/-- What is left of a frame that is being cleaned up lies in an interval. -/
def FitsCopying (f : Frame) (x : Interval) : Prop :=
  if f.west then x.1 ≤ f.stack ∧ f.stack + (reserved + 1) ≤ f.alloc ∧ f.alloc ≤ x.2
  else x.1 ≤ f.alloc ∧ f.alloc + reserved ≤ f.stack ∧ f.stack ≤ x.2

end Frame

/-- The slots, the lightweight stack and the allocations of frames that are not being cleaned up. -/
def partsOf (size : Nat) : List Frame → List Interval
  | [] => []
  | f :: older =>
    [f.slotsRegion, f.stackRegion, f.allocRegion (boundOf size older)] ++ partsOf size older

/-- The space for the next frame. -/
def spaceOf (size : Nat) : List Frame → Interval
  | [] => (0, size)
  | g :: _ => g.free

/-- The end of the arena at which the next frame is. -/
def westOf : List Frame → Bool
  | [] => true
  | g :: _ => !g.west

/-- Each frame lies in the free space of the frame before it. -/
def Nested (size : Nat) : List Frame → Prop
  | [] => True
  | f :: older => f.west = westOf older ∧ f.Fits (spaceOf size older) ∧ Nested size older

theorem boundOf_eq {size : Nat} {older : List Frame} :
    boundOf size older = if westOf older then (spaceOf size older).2 else (spaceOf size older).1 := by
  cases older with
  | nil => rfl
  | cons g older => cases hwest : g.west <;> simp [boundOf, westOf, spaceOf, Frame.free, hwest]

section Fits

variable {f : Frame} {x : Interval} {size : Nat} {older : List Frame}

theorem Frame.Fits.free_inside (h : f.Fits x) : f.free.Inside x := by
  unfold Frame.Fits at h
  unfold Frame.free Interval.Inside
  cases hf : f.west <;> simp [hf] at h ⊢ <;> omega

/-- The parts of a frame lie in its space and leave its free space free. -/
theorem Frame.Fits.parts (h : f.Fits (spaceOf size older)) (hwest : f.west = westOf older) :
    ∀ r ∈ [f.slotsRegion, f.stackRegion, f.allocRegion (boundOf size older)],
      r.Inside (spaceOf size older) ∧ r.Apart f.free := by
  unfold Frame.Fits at h
  rw [boundOf_eq, ← hwest]
  unfold Frame.slotsRegion Frame.stackRegion Frame.allocRegion Frame.free Interval.Inside
    Interval.Apart
  cases hf : f.west <;> simp [hf] at h ⊢ <;> omega

theorem Frame.Fits.pairwise (h : f.Fits (spaceOf size older)) :
    [f.slotsRegion, f.stackRegion, f.allocRegion (boundOf size older)].Pairwise Interval.Apart := by
  unfold Frame.Fits at h
  unfold Frame.slotsRegion Frame.stackRegion Frame.allocRegion
  cases hf : f.west <;> simp [hf, Interval.Apart] at h ⊢ <;> omega

/-- The same for a frame that is being cleaned up. What it leaves free goes to the frame before. -/
theorem Frame.FitsCopying.parts (h : f.FitsCopying (spaceOf size older))
    (hwest : f.west = westOf older) :
    ∀ r ∈ [f.savedRegion, f.copyRegion, f.allocRegion (boundOf size older)],
      r.Inside (spaceOf size older) := by
  unfold Frame.FitsCopying at h
  rw [boundOf_eq, ← hwest]
  unfold Frame.savedRegion Frame.copyRegion Frame.copyBase Frame.allocRegion Interval.Inside
  cases hf : f.west <;> simp [hf, reserved] at h ⊢ <;> omega

/-- After `pre_copy` the saved pointers lie next to the allocations and the lightweight stack
next to them, whatever the space of the frame: nothing is asked of it. -/
theorem Frame.copying_pairwise (f : Frame) (bound : Nat) :
    [f.savedRegion, f.copyRegion, f.allocRegion bound].Pairwise Interval.Apart := by
  unfold Frame.savedRegion Frame.copyRegion Frame.copyBase Frame.allocRegion
  cases f.west <;> simp [Interval.Apart, reserved]
  omega

/-- The parts of all frames keep out of the space for the next one. -/
theorem Nested.apart_space (h : Nested size older) :
    ∀ r ∈ partsOf size older, r.Apart (spaceOf size older) := by
  induction older with
  | nil => exact nofun
  | cons g older ih =>
    obtain ⟨hwest, hfits, hrest⟩ := h
    intro r hr
    rcases List.mem_append.1 hr with hr | hr
    · exact (hfits.parts hwest r hr).2
    · exact ((ih hrest r hr).symm.of_inside hfits.free_inside).symm

/-- Intervals in the space of a frame, and the parts of the frames before it. -/
theorem Nested.pairwise_append (h : Nested size older) {own : List Interval}
    (hown : own.Pairwise Interval.Apart) (hinside : ∀ r ∈ own, r.Inside (spaceOf size older))
    (hparts : (partsOf size older).Pairwise Interval.Apart) :
    (own ++ partsOf size older).Pairwise Interval.Apart := by
  rw [List.pairwise_append]
  refine ⟨hown, hparts, fun r hr r' hr' => ?_⟩
  exact (h.apart_space r' hr').symm.of_inside (hinside r hr)

theorem Nested.pairwise (h : Nested size older) : (partsOf size older).Pairwise Interval.Apart := by
  induction older with
  | nil => exact .nil
  | cons g older ih =>
    obtain ⟨hwest, hfits, hrest⟩ := h
    exact hrest.pairwise_append hfits.pairwise (fun r hr => (hfits.parts hwest r hr).1)
      (ih hrest)

theorem Nested.space_le (h : Nested size older) : (spaceOf size older).2 ≤ size := by
  induction older with
  | nil => exact Nat.le_refl _
  | cons g older ih => exact Nat.le_trans h.2.1.free_inside.2 (ih h.2.2)

theorem Nested.parts_le (h : Nested size older) : ∀ r ∈ partsOf size older, r.2 ≤ size := by
  induction older with
  | nil => exact nofun
  | cons g older ih =>
    obtain ⟨hwest, hfits, hrest⟩ := h
    intro r hr
    rcases List.mem_append.1 hr with hr | hr
    · exact Nat.le_trans (hfits.parts hwest r hr).1.2 hrest.space_le
    · exact ih hrest r hr

theorem regionsOf_sublist (size : Nat) (older : List Frame) :
    (regionsOf size older).Sublist (partsOf size older) := by
  induction older with
  | nil => exact .slnil
  | cons g older ih => exact ((List.sublist_cons_self _ _).append ih)

end Fits

/-! ### Blocks -/

/-- The blocks of each frame lie apart among its allocations. -/
def BlocksFit (size : Nat) : List Frame → Prop
  | [] => True
  | f :: older =>
    (∀ b ∈ f.blocks, (Frame.span b).Inside (f.allocRegion (boundOf size older))) ∧
      (f.blocks.map Frame.span).Pairwise Interval.Apart ∧ BlocksFit size older

/-- The allocations of frames. -/
def allocsOf (size : Nat) : List Frame → List Interval
  | [] => []
  | f :: older => f.allocRegion (boundOf size older) :: allocsOf size older

theorem allocsOf_sublist (size : Nat) (older : List Frame) :
    (allocsOf size older).Sublist (regionsOf size older) := by
  induction older with
  | nil => exact .slnil
  | cons g older ih => exact (ih.cons_cons _).cons _

theorem BlocksFit.inside {size : Nat} {fs : List Frame} (h : BlocksFit size fs) :
    ∀ b ∈ fs.flatMap Frame.blocks, ∃ r ∈ allocsOf size fs, (Frame.span b).Inside r := by
  induction fs with
  | nil => exact nofun
  | cons f older ih =>
    intro b hb
    rcases List.mem_append.1 hb with hb | hb
    · exact ⟨_, (.head _), h.1 b hb⟩
    · obtain ⟨r, hr, hinside⟩ := ih h.2.2 b hb
      exact ⟨r, .tail _ hr, hinside⟩

/-- Blocks of one frame are apart, and those of different frames are where these allocate. -/
theorem BlocksFit.pairwise {size : Nat} {fs : List Frame} (h : BlocksFit size fs)
    (hallocs : (allocsOf size fs).Pairwise Interval.Apart) :
    ((fs.flatMap Frame.blocks).map Frame.span).Pairwise Interval.Apart := by
  induction fs with
  | nil => exact .nil
  | cons f older ih =>
    obtain ⟨hinside, hown, hrest⟩ := h
    rw [allocsOf, List.pairwise_cons] at hallocs
    rw [List.flatMap_cons, List.map_append, List.pairwise_append]
    refine ⟨hown, ih hrest hallocs.2, ?_⟩
    intro x hx y hy
    obtain ⟨b, hb, rfl⟩ := List.mem_map.1 hx
    obtain ⟨c, hc, rfl⟩ := List.mem_map.1 hy
    obtain ⟨r, hr, hc⟩ := hrest.inside c hc
    exact (((hallocs.1 r hr).of_inside (hinside b hb)).symm.of_inside hc).symm

/-! ### The invariant of the program's view -/

/-- The frames lie in each other, and the current one may be being cleaned up. -/
structure Live.Fits (size : Nat) (l : Live) : Prop where
  west : l.cur.west = westOf l.older
  cur : if l.pc then l.older ≠ [] ∧ l.cur.FitsCopying (spaceOf size l.older)
    else l.cur.Fits (spaceOf size l.older)
  older : Nested size l.older
  blocks : BlocksFit size (l.cur :: l.older)

/-- The parts of the live frames. -/
def Live.parts (size : Nat) (l : Live) : List Interval :=
  (if l.pc then [l.cur.savedRegion, l.cur.copyRegion, l.cur.allocRegion (boundOf size l.older)]
    else [l.cur.slotsRegion, l.cur.stackRegion, l.cur.allocRegion (boundOf size l.older)]) ++
    partsOf size l.older

namespace Live.Fits

variable {size : Nat} {l : Live}

theorem parts_pairwise (h : l.Fits size) : (l.parts size).Pairwise Interval.Apart := by
  have hcur := h.cur
  unfold Live.parts
  split_ifs at hcur with hpc
  · rw [if_pos hpc]
    exact h.older.pairwise_append (l.cur.copying_pairwise _) (hcur.2.parts h.west) h.older.pairwise
  · rw [if_neg hpc]
    exact h.older.pairwise_append hcur.pairwise
      (fun r hr => (hcur.parts h.west r hr).1) h.older.pairwise

theorem parts_le (h : l.Fits size) : ∀ r ∈ l.parts size, r.2 ≤ size := by
  have hcur := h.cur
  intro r hr
  rcases List.mem_append.1 hr with hr | hr
  · refine Nat.le_trans ?_ h.older.space_le
    split_ifs at hcur with hpc
    · rw [if_pos hpc] at hr
      exact (hcur.2.parts h.west r hr).2
    · rw [if_neg hpc] at hr
      exact (hcur.parts h.west r hr).1.2
  · exact h.older.parts_le r hr

theorem regions_sublist (size : Nat) (l : Live) : (l.regions size).Sublist (l.parts size) := by
  refine List.Sublist.append ?_ (regionsOf_sublist size l.older)
  cases l.pc <;> exact List.sublist_cons_self _ _

theorem regions_pairwise (h : l.Fits size) : (l.regions size).Pairwise Interval.Apart :=
  h.parts_pairwise.sublist (regions_sublist size l)

theorem regions_le (h : l.Fits size) : ∀ r ∈ l.regions size, r.2 ≤ size :=
  fun r hr => h.parts_le r ((regions_sublist size l).subset hr)

theorem blocks_pairwise (h : l.Fits size) : (l.blocks.map Frame.span).Pairwise Interval.Apart := by
  refine h.blocks.pairwise (h.regions_pairwise.sublist ?_)
  exact ((allocsOf_sublist size l.older).cons_cons _).cons _

end Live.Fits

end Nockchain.Mem.Stack
