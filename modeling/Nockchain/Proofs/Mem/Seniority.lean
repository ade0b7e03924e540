import Nockchain.Mem.UnifyingEquality

/-!
# `Nockchain.Proofs.Mem.Seniority`: which object is the older one

The free space of a frame lies within that of the frame before it (`Nested`), so no
two frames have an allocation in common, and an object has the number of the frame
that it lives in (`age`). `senior_pointer_first` walks from the
current frame to the oldest and stops at the first that has one of the two
pointers: what it calls the junior one is never in an older frame than the other
(`seniorPointerFirst_eq`).

`NounSpace.level` puts the persistent arena above all frames. `replaceX_eq` says what
`replace_x` decides in these terms: the reference that is overwritten leads to a
place of no higher level than the one that replaces it.
-/

set_option autoImplicit false

namespace Nockchain.Mem

namespace NockStack

variable {stack : NockStack} {f g : Frame} {older : List Frame} {a b ptr : Nat}

/-- The addresses at which a frame allocates. -/
def region (stack : NockStack) (f : Frame) (older : List Frame) : Nat × Nat :=
  if f.isWest then (f.allocPointer, (prevStackPointer older).getD stack.finish)
  else ((prevStackPointer older).getD stack.start, f.allocPointer)

/-- The free space of each frame lies within that of the frame before it. -/
def Nested (stack : NockStack) : List Frame → Prop
  | [] => True
  | [f] =>
    if f.isWest then stack.start ≤ f.stackPointer ∧ f.allocPointer ≤ stack.finish
    else stack.start ≤ f.allocPointer ∧ f.allocPointer < f.stackPointer ∧
      f.stackPointer ≤ stack.finish
  | f :: g :: older =>
    (if f.isWest then g.allocPointer ≤ f.stackPointer ∧ f.allocPointer ≤ g.stackPointer
      else g.stackPointer ≤ f.allocPointer ∧ f.allocPointer < f.stackPointer ∧
        f.stackPointer ≤ g.allocPointer) ∧ Nested stack (g :: older)

/-- The number of the first frame, from the current one, that has an address. -/
def age (stack : NockStack) (ptr : Nat) : List Frame → Nat
  | [] => 0
  | f :: older => if ptrInRange ptr (stack.region f older) then 0 else age stack ptr older + 1

theorem Nested.tail (h : stack.Nested (f :: older)) : stack.Nested older := by
  cases older with
  | nil => trivial
  | cons g older => exact h.2

theorem Frame.isWest_iff : f.isWest ↔ f.stackPointer < f.allocPointer := by
  simp [Frame.isWest]

theorem Frame.isWest_eq_false : f.isWest = false ↔ f.allocPointer ≤ f.stackPointer := by
  simp [Frame.isWest]

/-- The pointers of a frame do not meet. -/
theorem Nested.ne (h : stack.Nested (f :: older)) : f.stackPointer ≠ f.allocPointer := by
  cases hwest : f.isWest with
  | true => exact Nat.ne_of_lt (Frame.isWest_iff.1 hwest)
  | false => cases older <;> simp only [Nested, hwest] at h <;> simp at h <;> omega

/-- Consecutive frames come from opposite ends. -/
theorem Nested.isWest_ne (h : stack.Nested (f :: g :: older)) : g.isWest = !f.isWest := by
  obtain ⟨h, -⟩ := h
  cases hwest : f.isWest with
  | true =>
    rw [if_pos hwest] at h
    have := Frame.isWest_iff.1 hwest
    exact Frame.isWest_eq_false.2 (by omega)
  | false =>
    rw [if_neg (by simp [hwest])] at h
    exact Frame.isWest_iff.2 (by omega)

theorem Nested.region_le (h : stack.Nested (f :: older)) :
    (stack.region f older).1 ≤ (stack.region f older).2 := by
  cases hwest : f.isWest <;> cases older <;>
    simp [Nested, region, prevStackPointer, hwest] at h ⊢ <;> omega

theorem normalizeBounds_of_le (low high : Option Nat)
    (h : low.getD stack.start ≤ high.getD stack.finish) :
    stack.normalizeBounds low high = (low.getD stack.start, high.getD stack.finish) := by
  rw [normalizeBounds, if_neg (by omega)]

/-- The bounds that `senior_pointer_first` computes for the frame before one. -/
theorem Nested.bounds_eq (h : stack.Nested (f :: g :: older)) :
    (if f.isWest then stack.normalizeBounds (prevStackPointer older) (some g.allocPointer)
      else stack.normalizeBounds (some g.allocPointer) (prevStackPointer older)) =
      stack.region g older := by
  have hne := h.isWest_ne
  have hle := h.tail.region_le
  cases hwest : f.isWest with
  | true =>
    have heast : g.isWest = false := by simp [hne, hwest]
    simp only [region, heast, if_true] at hle ⊢
    exact normalizeBounds_of_le _ (some g.allocPointer) hle
  | false =>
    have hwest' : g.isWest := by simp [hne, hwest]
    simp only [region, hwest', if_true] at hle ⊢
    exact normalizeBounds_of_le (some g.allocPointer) _ hle

/-- The pointers in their order, with the junior one not in an older frame. -/
structure Ordered (stack : NockStack) (frames : List Frame) (a b : Nat) (first : Nat × Nat) :
    Prop where
  eq : first = (a, b) ∨ first = (b, a)
  age_le : stack.age first.2 frames ≤ stack.age first.1 frames

theorem lowerPointerFirst_eq (a b : Nat) :
    lowerPointerFirst a b = (a, b) ∨ lowerPointerFirst a b = (b, a) := by
  unfold lowerPointerFirst
  split <;> simp

theorem ordered_of_age_eq {frames : List Frame} (h : stack.age a frames = stack.age b frames) :
    stack.Ordered frames a b (lowerPointerFirst a b) := by
  refine ⟨lowerPointerFirst_eq a b, ?_⟩
  rcases lowerPointerFirst_eq a b with heq | heq <;> rw [heq]
  · exact h.ge
  · exact h.le

/-- The loop looks from the top frame down and ends at the first frame that has one of the two. -/
theorem seniorLoop_eq (h : stack.Nested (f :: older)) (a b : Nat) :
    ∃ first, stack.seniorLoop a b (stack.region f older) f older = some first ∧
      stack.Ordered (f :: older) a b first := by
  induction older generalizing f with
  | nil =>
    unfold seniorLoop
    cases ha : ptrInRange a (stack.region f []) <;> cases hb : ptrInRange b (stack.region f [])
    · refine ⟨lowerPointerFirst a b, by simp [h.ne], ordered_of_age_eq ?_⟩
      simp [age, ha, hb]
    · exact ⟨_, rfl, .inl rfl, by simp [age, hb]⟩
    · exact ⟨_, rfl, .inr rfl, by simp [age, ha]⟩
    · exact ⟨_, rfl, ordered_of_age_eq (by simp [age, ha, hb])⟩
  | cons g older ih =>
    unfold seniorLoop
    cases ha : ptrInRange a (stack.region f (g :: older)) <;>
      cases hb : ptrInRange b (stack.region f (g :: older))
    · obtain ⟨first, hfirst, heq, hle⟩ := ih h.tail
      refine ⟨first, ?_, heq, ?_⟩
      · simp only [h.ne, if_false, h.bounds_eq]
        exact hfirst
      · -- Neither is in this frame, so both ages are one more than from the next frame.
        rcases heq with rfl | rfl <;> simpa [age, ha, hb] using hle
    · exact ⟨_, rfl, .inl rfl, by simp [age, hb]⟩
    · exact ⟨_, rfl, .inr rfl, by simp [age, ha]⟩
    · exact ⟨_, rfl, ordered_of_age_eq (by simp [age, ha, hb])⟩

/-! ### In a frame of its own -/

/-- The frames of the stack, from the current one. -/
def frames (stack : NockStack) : List Frame := stack.current :: stack.older

/-- There is room for a frame without locals and for an entry on its work stack. -/
def Room (stack : NockStack) : Prop :=
  if stack.current.isWest then stack.current.stackPointer + 24 < stack.current.allocPointer
  else stack.current.allocPointer + 24 < stack.current.stackPointer

theorem nested_framePush (frames : List Frame) :
    (stack.framePush 0).Nested frames ↔ stack.Nested frames := by
  induction frames with
  | nil => rfl
  | cons f older ih =>
    cases older with
    | nil => rfl
    | cons g older => exact and_congr_right fun _ => ih

theorem age_framePush (ptr : Nat) (frames : List Frame) :
    (stack.framePush 0).age ptr frames = stack.age ptr frames := by
  induction frames with
  | nil => rfl
  | cons f older ih =>
    simp only [age, ih]
    rfl

/-- The new frame begins in the free space of the one below it. -/
theorem Nested.framePush (h : stack.Nested stack.frames) (hroom : stack.Room) :
    stack.Nested (stack.framePush 0).frames := by
  refine ⟨?_, h⟩
  cases hwest : stack.current.isWest with
  | true =>
    rw [Room, if_pos hwest] at hroom
    have heast : (stack.framePush 0).current.isWest = false := by
      simp [NockStack.framePush, hwest, Frame.isWest_eq_false]
      omega
    rw [if_neg (by simp [heast])]
    simp [NockStack.framePush, hwest]
    omega
  | false =>
    rw [Room, if_neg (by simp [hwest])] at hroom
    have hwest' : (stack.framePush 0).current.isWest := by
      simp [NockStack.framePush, hwest, Frame.isWest_iff]
      omega
    rw [if_pos hwest']
    simp [NockStack.framePush, hwest]

theorem currentFrameBounds_framePush : (stack.framePush 0).currentFrameBounds =
      (stack.current.stackPointer, stack.current.stackPointer) := by
  simp [currentFrameBounds, framePush, prevStackPointer, normalizeBounds]

/-- From the frame that `unifying_equality` pushes, which has no allocations. -/
theorem seniorPointerFirst_eq (h : stack.Nested stack.frames) (hroom : stack.Room) (a b : Nat) :
    ∃ first, (stack.framePush 0).seniorPointerFirst a b = some first ∧
      stack.Ordered stack.frames a b first := by
  have hpush := h.framePush hroom
  obtain ⟨first, hfirst, heq, hle⟩ := seniorLoop_eq ((nested_framePush _).2 h) a b
  refine ⟨first, ?_, heq, ?_⟩
  · have hnone : ∀ ptr bound, ptrInRange ptr (bound, bound) = false := by
      simp [ptrInRange]
    have hbounds : (if (stack.framePush 0).current.isWest then
          (stack.framePush 0).normalizeBounds (some stack.current.stackPointer)
            (some stack.current.stackPointer)
        else (stack.framePush 0).normalizeBounds (some stack.current.stackPointer)
          (some stack.current.stackPointer)) =
        (stack.current.stackPointer, stack.current.stackPointer) := by
      simp [normalizeBounds]
    show seniorLoop _ a b (if _ then _ else _) _ (stack.current :: stack.older) = _
    unfold seniorLoop
    erw [hbounds]
    simp only [hnone, hpush.ne, if_false]
    rwa [((nested_framePush _).2 hpush).bounds_eq]
  · rwa [age_framePush, age_framePush] at hle

/-- `x_is_junior` in that frame. -/
theorem xIsJunior_eq (h : stack.Nested stack.frames) (hroom : stack.Room) (x y : Nat) :
    ∃ junior, (stack.framePush 0).xIsJunior (stack.framePush 0).currentFrameBounds x y =
        some junior ∧ (junior → stack.age x stack.frames ≤ stack.age y stack.frames) ∧
      (junior = false → stack.age y stack.frames ≤ stack.age x stack.frames) := by
  obtain ⟨⟨senior, junior⟩, hfirst, heq, hle⟩ := seniorPointerFirst_eq h hroom x y
  have hnone : ∀ ptr bound, ptrInRange ptr (bound, bound) = false := by
    simp [ptrInRange]
  refine ⟨decide (x = junior), ?_, ?_, ?_⟩
  · simp [xIsJunior, currentFrameBounds_framePush, hnone, hfirst]
  · intro hx
    simp only [decide_eq_true_eq] at hx
    rcases heq with heq | heq <;> cases heq
    · exact hx ▸ le_refl _
    · exact hle
  · intro hx
    simp only [decide_eq_false_iff_not] at hx
    rcases heq with heq | heq <;> cases heq
    · exact hle
    · exact absurd rfl hx

end NockStack

/-! ### Levels -/

namespace NounSpace

variable {space : NounSpace}

/-- The level of an address: the number of its frame or, above all frames, the persistent arena. -/
def level (space : NounSpace) (ptr : Nat) : WithTop Nat :=
  if space.stack.start ≤ ptr ∧ ptr < space.stack.finish then
    (space.stack.age ptr space.stack.frames : Nat)
  else ⊤

/-- The level of what a word refers to. An offset leads into the persistent arena, and a word without
a reference may stand anywhere. -/
def wordLevel (space : NounSpace) : Word → WithTop Nat
  | .direct _ => ⊤
  | .allocated _ .offset _ => ⊤
  | .allocated _ .pointer ptr => space.level ptr

/-- A stack as the comparison finds it. -/
structure Laid (space : NounSpace) : Prop where
  nested : space.stack.Nested space.stack.frames
  room : space.stack.Room

/-- The location of a noun tells its level. -/
theorem allocatedLocation_eq {ptr : Nat} (form : Form) (kind : Kind)
    (h : space.classifyPtr ptr ≠ none) : ∃ l, space.allocatedLocation form ptr = some l ∧
      (l.isPma → space.wordLevel (.allocated kind form ptr) = ⊤) ∧
      (l.isPma = false → space.wordLevel (.allocated kind form ptr) =
        (space.stack.age ptr space.stack.frames : Nat)) := by
  cases form with
  | offset => exact ⟨.pmaOffset, rfl, fun _ => rfl, by simp [AllocLocation.isPma]⟩
  | pointer =>
    simp only [allocatedLocation, classifyPtr, wordLevel, level] at h ⊢
    by_cases hstack : space.stack.start ≤ ptr ∧ ptr < space.stack.finish
    · simp [hstack, AllocLocation.isPma]
    simp only [hstack, if_false] at h ⊢
    split at h
    case h_1 arena hpma =>
      split_ifs at h with hin
      · exact ⟨.pmaPtr, by simp [hin], by simp, by simp [AllocLocation.isPma]⟩
      · exact absurd rfl h
    case h_2 => exact absurd rfl h

/-- `replace_x` overwrites the reference of the lower level. -/
theorem replaceX_eq (h : space.Laid) {xptr yptr : Nat} (xform yform : Form) (xkind ykind : Kind)
    (hx : space.classifyPtr xptr ≠ none) (hy : space.classifyPtr yptr ≠ none) :
    ∃ replace, ({ space with stack := space.stack.framePush 0 } : NounSpace).replaceX
        (space.stack.framePush 0).currentFrameBounds xform xptr yform yptr = some replace ∧
      (replace → space.wordLevel (.allocated xkind xform xptr) ≤
        space.wordLevel (.allocated ykind yform yptr)) ∧
      (replace = false → space.wordLevel (.allocated ykind yform yptr) ≤
        space.wordLevel (.allocated xkind xform xptr)) := by
  obtain ⟨xl, hxl, hxpma, hxstack⟩ := allocatedLocation_eq xform xkind hx
  obtain ⟨yl, hyl, hypma, hystack⟩ := allocatedLocation_eq yform ykind hy
  have hxl' : ({ space with stack := space.stack.framePush 0 } : NounSpace).allocatedLocation
      xform xptr = some xl := hxl
  have hyl' : ({ space with stack := space.stack.framePush 0 } : NounSpace).allocatedLocation
      yform yptr = some yl := hyl
  simp only [replaceX, hxl', hyl', Option.bind_eq_bind, Option.bind_some]
  cases hxp : xl.isPma <;> cases hyp : yl.isPma
  · obtain ⟨junior, hjunior, hxle, hyle⟩ :=
      NockStack.xIsJunior_eq h.nested h.room xptr yptr
    rw [hxstack hxp, hystack hyp]
    exact ⟨junior, hjunior, fun hj => WithTop.coe_le_coe.2 (hxle hj),
      fun hj => WithTop.coe_le_coe.2 (hyle hj)⟩
  · exact ⟨true, rfl, fun _ => by simp [hypma hyp], by simp⟩
  · exact ⟨false, rfl, by simp, fun _ => by simp [hxpma hxp]⟩
  · exact ⟨_, rfl, fun _ => by simp [hypma hyp], fun _ => by simp [hxpma hxp]⟩

end NounSpace

end Nockchain.Mem
