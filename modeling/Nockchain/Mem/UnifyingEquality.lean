import Nockchain.Mem.Heap

/-!
# `Nockchain.Mem.UnifyingEquality`: equality that shares what it finds equal

`unifying_equality` compares two nouns in memory and, where parts of them are
equal, overwrites one reference by the other. Which one it overwrites follows from
where the two objects are: a reference from an older frame into a younger one
would dangle when the younger frame is popped, and so would a reference from the
persistent arena into the stack.

The frames of the stack come alternately from its two ends. A frame has its
allocations between its own `alloc_pointer` and the `stack_pointer` of the frame
before it, which it saves together with the other pointers of that frame. Here the
saved pointers are the next frame in a list, and a null pointer is its end.

The pushes to the work stack are not counted against the room in the stack arena.
`x_is_junior` has a last part that keeps bounds of frames in a buffer; the three
tests before it are exhaustive, so it never runs and is left out.
-/

set_option autoImplicit false

namespace Nockchain.Mem

/-! ### Memory -/

/-- A place that holds a word: a variable of the caller, or a field of the cell at an address. -/
inductive Slot where
  | root (i : Nat)
  | head (ptr : Nat)
  | tail (ptr : Nat)
deriving DecidableEq, Repr

structure Memory where
  heap : Heap
  root : Nat → Word

namespace Memory

/-- `*x`. -/
def read (m : Memory) : Slot → Option Word
  | .root i => some (m.root i)
  | .head ptr =>
    match m.heap.object ptr with
    | some (.cell head _) => some head
    | _ => none
  | .tail ptr =>
    match m.heap.object ptr with
    | some (.cell _ tail) => some tail
    | _ => none

/-- Another object at an address. -/
def setObject (m : Memory) (ptr : Nat) (obj : Object) : Memory :=
  { m with heap.object := fun p => if p = ptr then some obj else m.heap.object p }

/-- `*x = w`. -/
def write (m : Memory) (x : Slot) (w : Word) : Memory :=
  match x with
  | .root i => { m with root := fun j => if j = i then w else m.root j }
  | .head ptr =>
    match m.heap.object ptr with
    | some (.cell _ tail) => m.setObject ptr (.cell w tail)
    | _ => m
  | .tail ptr =>
    match m.heap.object ptr with
    | some (.cell head _) => m.setObject ptr (.cell head w)
    | _ => m

end Memory

/-! ### Frames -/

structure Frame where
  framePointer : Nat
  stackPointer : Nat
  allocPointer : Nat
deriving DecidableEq, Repr

/-- `NockStack`: the current frame, and the ones before it. -/
structure NockStack where
  start : Nat
  size : Nat
  current : Frame
  older : List Frame

/-- `is_west`. -/
def Frame.isWest (f : Frame) : Bool := f.stackPointer < f.allocPointer

namespace NockStack

def finish (stack : NockStack) : Nat := stack.start + 8 * stack.size

/-- `frame_push`, where the frame has room. `RESERVED` is three. -/
def framePush (stack : NockStack) (numLocals : Nat) : NockStack :=
  let words := numLocals + 3
  let framePointer :=
    if stack.current.isWest then stack.current.allocPointer - 8 * words
    else stack.current.allocPointer + 8 * words
  { stack with
    current := ⟨framePointer, framePointer, stack.current.stackPointer⟩
    older := stack.current :: stack.older }

/-- The saved `stack_pointer` of a frame, from the frames before it. -/
def prevStackPointer (older : List Frame) : Option Nat := older.head?.map Frame.stackPointer

/-- `normalize_bounds`, of pointers that may be null. -/
def normalizeBounds (stack : NockStack) (low high : Option Nat) : Nat × Nat :=
  let low := low.getD stack.start
  let high := high.getD stack.finish
  if low > high then (high, low) else (low, high)

/-- `current_frame_bounds`. -/
def currentFrameBounds (stack : NockStack) : Nat × Nat :=
  let allocPtr := some stack.current.allocPointer
  let prevStackPtr := prevStackPointer stack.older
  if stack.current.isWest then stack.normalizeBounds allocPtr prevStackPtr
  else stack.normalizeBounds prevStackPtr allocPtr

/-- `ptr_in_range`. -/
def ptrInRange (ptr : Nat) (bounds : Nat × Nat) : Bool := bounds.1 ≤ ptr && ptr < bounds.2

/-- `lower_pointer_first`. -/
def lowerPointerFirst (a b : Nat) : Nat × Nat := if a < b then (a, b) else (b, a)

/-- The loop of `senior_pointer_first`, at a frame and the ones before it, with its bounds. A frame
whose two pointers meet is a panic. -/
def seniorLoop (stack : NockStack) (a b : Nat) :
    Nat × Nat → Frame → List Frame → Option (Nat × Nat)
  | bounds, frame, older =>
    match ptrInRange a bounds, ptrInRange b bounds with
    | true, false => some (b, a)
    | false, true => some (a, b)
    | true, true => some (lowerPointerFirst a b)
    | false, false =>
      if frame.stackPointer = frame.allocPointer then none
      else
        match older with
        | [] => some (lowerPointerFirst a b)
        | prev :: older =>
          let bounds :=
            if frame.isWest then
              stack.normalizeBounds (prevStackPointer older) (some prev.allocPointer)
            else stack.normalizeBounds (some prev.allocPointer) (prevStackPointer older)
          seniorLoop stack a b bounds prev older

/-- `senior_pointer_first`. -/
def seniorPointerFirst (stack : NockStack) (a b : Nat) : Option (Nat × Nat) :=
  let allocPointer := some stack.current.allocPointer
  let prevStackPointer := prevStackPointer stack.older
  let bounds :=
    if stack.current.isWest then stack.normalizeBounds prevStackPointer allocPointer
    else stack.normalizeBounds allocPointer prevStackPointer
  seniorLoop stack a b bounds stack.current stack.older

/-- `x_is_junior`: whether `x` is the junior one. -/
def xIsJunior (stack : NockStack) (current : Nat × Nat) (x y : Nat) : Option Bool :=
  match ptrInRange x current, ptrInRange y current with
  | true, false => some true
  | false, true => some false
  | true, true => some (x > y)
  | false, false => do
    let (_, junior) ← stack.seniorPointerFirst x y
    return x = junior

end NockStack

/-! ### The comparison -/

/-- `AllocLocation`. -/
inductive AllocLocation where
  | stack
  | pmaPtr
  | pmaOffset
deriving DecidableEq, Repr

def AllocLocation.isPma : AllocLocation → Bool
  | stack => false
  | pmaPtr => true
  | pmaOffset => true

/-- `NounSpace`: the arena of the stack and, where there is one, the persistent arena. -/
structure NounSpace where
  stack : NockStack
  pma : Option Arena

namespace NounSpace

/-- `classify_ptr`: a pointer outside both arenas is a panic. -/
def classifyPtr (space : NounSpace) (ptr : Nat) : Option AllocLocation :=
  if space.stack.start ≤ ptr ∧ ptr < space.stack.finish then some .stack
  else
    match space.pma with
    | some arena =>
      if arena.base ≤ ptr ∧ ptr < arena.base + arena.lenBytes then some .pmaPtr else none
    | none => none

/-- The location of an allocated noun, in `allocated_location`. -/
def allocatedLocation (space : NounSpace) (form : Form) (ptr : Nat) : Option AllocLocation :=
  match form with
  | .offset => some .pmaOffset
  | .pointer => space.classifyPtr ptr

/-- `replace_x`: whether the reference to the first object is the one to overwrite. -/
def replaceX (space : NounSpace) (current : Nat × Nat) (xform : Form) (xptr : Nat) (yform : Form)
    (yptr : Nat) : Option Bool := do
  let xl ← space.allocatedLocation xform xptr
  let yl ← space.allocatedLocation yform yptr
  match xl.isPma, yl.isPma with
  | true, false => return false
  | false, true => return true
  | true, true => return xptr > yptr
  | false, false => space.stack.xIsJunior current xptr yptr

end NounSpace

/-- Where a turn of the loop leads. -/
inductive Turn where
  | next (m : Memory) (work : List (Slot × Slot))
  | brk (m : Memory)

section

variable (space : NounSpace) (current : Nat × Nat)

/-- Two equal objects: one reference is overwritten, and the pair is done. -/
def unify (m : Memory) (x y : Slot) (xw yw : Word) (work : List (Slot × Slot)) (xform : Form)
    (xptr : Nat) (yform : Form) (yptr : Nat) : Option Turn := do
  if ← space.replaceX current xform xptr yform yptr then return .next (m.write x yw) work
  else return .next (m.write y xw) work

/-- Both mugs are cached, and they differ. -/
def mugsDiffer (heap : Heap) (xptr yptr : Nat) : Bool :=
  match heap.getCachedMug xptr, heap.getCachedMug yptr with
  | some xm, some ym => xm ≠ ym
  | _, _ => false

/-- Two allocated nouns whose mugs do not tell them apart. The children of cells that are not yet
the same word are put on the work stack, above the pair itself. `none` where the memory does not
hold what a tag says, or an assertion fails. -/
def compareAllocated (m : Memory) (x y : Slot) (work : List (Slot × Slot)) (xkind : Kind)
    (xform : Form) (xptr : Nat) (ykind : Kind) (yform : Form) (yptr : Nat) : Option Turn :=
  let xw := Word.allocated xkind xform xptr
  let yw := Word.allocated ykind yform yptr
  match xkind, ykind with
  | .indirect, .indirect =>
    match m.heap.object xptr, m.heap.object yptr with
    | some (.atom xdata), some (.atom ydata) =>
      if xdata.length = ydata.length ∧ xdata = ydata then
        unify space current m x y xw yw work xform xptr yform yptr
      else some (.brk m)
    | _, _ => none
  | .cell, .cell =>
    match m.heap.object xptr, m.heap.object yptr with
    | some (.cell xh xt), some (.cell yh yt) =>
      if xh = yh then
        if xt = yt then unify space current m x y xw yw work xform xptr yform yptr
        else some (.next m ((.tail xptr, .tail yptr) :: (x, y) :: work))
      else if xt = yt then some (.next m ((.head xptr, .head yptr) :: (x, y) :: work))
      else some (.next m
        ((.head xptr, .head yptr) :: (.tail xptr, .tail yptr) :: (x, y) :: work))
    | _, _ => none
  -- Cells do not unify with atoms.
  | _, _ => some (.brk m)

/-- A turn of the loop, with a pair on top of the work stack. -/
def unifyTurn (m : Memory) (x y : Slot) (work : List (Slot × Slot)) : Option Turn :=
  match m.read x, m.read y with
  | some xw, some yw =>
    if xw = yw then some (.next m work)
    else
      match xw, yw with
      | .allocated xkind xform xptr, .allocated ykind yform yptr =>
        if mugsDiffer m.heap xptr yptr then some (.brk m)
        else compareAllocated space current m x y work xkind xform xptr ykind yform yptr
      | _, _ => some (.brk m)
  | _, _ => none

/-- The loop of `unifying_equality`. -/
def unifyLoop : Nat → Memory → List (Slot × Slot) → Option Memory
  | 0, _, _ => none
  | _ + 1, m, [] => some m
  | fuel + 1, m, (x, y) :: work => do
    match ← unifyTurn space current m x y work with
    | .next m work => unifyLoop fuel m work
    | .brk m => return m

end

/-- `unifying_equality`. The comparison runs in a frame of its own. -/
def unifyingEquality (fuel : Nat) (space : NounSpace) (m : Memory) (a b : Slot) :
    Option (Bool × Memory) := do
  let aw ← m.read a
  let bw ← m.read b
  if aw = bw then return (true, m)
  if mugged aw bw then return (false, m)
  let space := { space with stack := space.stack.framePush 0 }
  let m ← unifyLoop space space.stack.currentFrameBounds fuel m [(a, b)]
  return (decide ((← m.read a) = (← m.read b)), m)
where
  /-- Two allocated nouns with different mugs. -/
  mugged (aw bw : Word) : Bool :=
    match aw, bw with
    | .allocated _ _ aptr, .allocated _ _ bptr => mugsDiffer m.heap aptr bptr
    | _, _ => false

end Nockchain.Mem
