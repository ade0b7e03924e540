import Mathlib

/-!
# `Nockchain.Mem.Stack`: the frames of the stack allocator

`NockStack` of `mem.rs` is one arena with two ends. Frames alternate between them: a west frame
keeps its slots and its lightweight stack at the low end of the free space and allocates from the
high end, an east frame the other way round. The pointers of the frame before are saved in the
first three slots of a frame, as addresses in the memory itself, so the memory is part of the
state. `pre_copy` moves them next to the allocations, turns the lightweight stack round, and leaves
the rest of the frame to the copies that are made for the frame before.

Pointers that the code returns are offsets here, and a panic is `none`. A request that
`alloc_would_oom_` refuses panics. Debug assertions are left out.
-/

set_option autoImplicit false

namespace Nockchain.Mem.Stack

/-- `RESERVED`. -/
def reserved : Nat := 3

/-- `FRAME`, `STACK` and `ALLOC`: the slots for the pointers of the frame before. -/
inductive Saved where
  | frame
  | stack
  | alloc
deriving DecidableEq, Repr

def Saved.slot : Saved → Nat
  | frame => 0
  | stack => 1
  | alloc => 2

/-- `ArenaOrientation`. -/
inductive Orientation where
  | west
  | east
deriving DecidableEq, Repr

/-- `AllocationType`, as far as the operations here ask. -/
inductive AllocationType where
  | alloc
  | push
  | framePush
  | allocPreviousFrame
deriving DecidableEq, Repr

/-- `allowed_when_pc`. -/
def AllocationType.allowedWhenPc : AllocationType → Bool
  | push | allocPreviousFrame => true
  | alloc | framePush => false

/-- `NockStack`, with the words of its arena. -/
structure NockStack where
  start : Nat
  size : Nat
  frameOffset : Nat
  stackOffset : Nat
  allocOffset : Nat
  leastSpace : Nat
  pc : Bool
  mem : Nat → Nat

namespace NockStack

/-- `derive_ptr`. -/
def derivePtr (s : NockStack) (offset : Nat) : Nat := s.start + 8 * offset

/-- The offset of an address, by wrapping subtraction. -/
def offsetOf (s : NockStack) (ptr : Nat) : Nat := ((ptr + 2 ^ 64 - s.start) % 2 ^ 64) >>> 3

/-- `is_west`. -/
def isWest (s : NockStack) : Bool := s.stackOffset < s.allocOffset

/-- `slot_offset`. -/
def slotOffset (s : NockStack) (slot : Nat) : Nat :=
  if s.isWest then s.frameOffset - (slot + 1) else s.frameOffset + slot

/-- `free_slot_offset`. -/
def freeSlotOffset (s : NockStack) (slot : Nat) : Nat :=
  if s.isWest then s.allocOffset - (slot + 1) else s.allocOffset + slot

/-- `prev_frame_pointer_pointer` and its like: where a pointer of the frame before is saved. -/
def prevPointerPointer (s : NockStack) (p : Saved) : Nat :=
  if !s.pc then s.slotOffset p.slot else s.freeSlotOffset p.slot

/-- The saved pointer. -/
def prevPointer (s : NockStack) (p : Saved) : Nat := s.mem (s.prevPointerPointer p)

/-- `prev_alloc_offset`. -/
def prevAllocOffset (s : NockStack) : Nat := s.offsetOf (s.prevPointer .alloc)

/-- Writing a word. -/
def write (s : NockStack) (offset word : Nat) : NockStack :=
  { s with mem := Function.update s.mem offset word }

/-- `from_arena_internal`: one west frame, whose saved pointers are null and the start. -/
def new (start size topSlots : Nat) : Option NockStack := do
  guard (topSlots + reserved ≤ size)
  let frameOffset := reserved + topSlots
  let s : NockStack :=
    { start, size, frameOffset, stackOffset := frameOffset, allocOffset := size,
      leastSpace := size - frameOffset, pc := false, mem := fun _ => 0 }
  return ((s.write (frameOffset - (Saved.frame.slot + 1)) 0).write
    (frameOffset - (Saved.stack.slot + 1)) 0).write (frameOffset - (Saved.alloc.slot + 1)) start

/-- Where the lightweight stack ends: at the allocations of the frame before, once the frame is
being cleaned up. -/
def limitOffset (s : NockStack) : Nat := if s.pc then s.prevAllocOffset else s.allocOffset

/-- `alloc_would_oom_`. -/
def allocWouldOom_ (s : NockStack) (type : AllocationType) (orientation : Orientation)
    (words : Nat) : Option Unit := do
  guard (!(s.pc && !type.allowedWhenPc))
  match type, orientation with
  | .alloc, .west | .framePush, .west =>
    guard (words ≤ s.allocOffset)
    guard (s.stackOffset ≤ s.allocOffset - words)
  | .alloc, .east | .framePush, .east => guard (s.allocOffset + words ≤ s.stackOffset)
  | .push, .west => guard (s.stackOffset + words ≤ s.limitOffset)
  | .push, .east =>
    guard (words ≤ s.stackOffset)
    guard (s.limitOffset ≤ s.stackOffset - words)
  | .allocPreviousFrame, .west => guard (s.prevAllocOffset + words ≤ s.stackOffset)
  | .allocPreviousFrame, .east =>
    guard (words ≤ s.prevAllocOffset)
    guard (s.stackOffset ≤ s.prevAllocOffset - words)

/-- `alloc_would_oom`. -/
def allocWouldOom (s : NockStack) (type : AllocationType) (words : Nat) : Option Unit :=
  s.allocWouldOom_ type (if s.isWest then .west else .east) words

/-! ### Allocation -/

/-- `raw_alloc_west`. -/
def rawAllocWest (s : NockStack) (words : Nat) : Option (Nat × NockStack) := do
  s.allocWouldOom .alloc words
  guard (!s.pc)
  guard (words ≤ s.allocOffset)
  let newAllocOffset := s.allocOffset - words
  guard (s.stackOffset ≤ newAllocOffset)
  let newSpace := newAllocOffset - s.stackOffset
  return (newAllocOffset,
    { s with leastSpace := min newSpace s.leastSpace, allocOffset := newAllocOffset })

/-- `raw_alloc_east`. -/
def rawAllocEast (s : NockStack) (words : Nat) : Option (Nat × NockStack) := do
  s.allocWouldOom .alloc words
  guard (!s.pc)
  let newAllocOffset := s.allocOffset + words
  guard (newAllocOffset ≤ s.stackOffset)
  let newSpace := s.stackOffset - newAllocOffset
  guard (newAllocOffset ≤ s.size)
  return (s.allocOffset,
    { s with leastSpace := min newSpace s.leastSpace, allocOffset := newAllocOffset })

/-- `struct_alloc` and its like, by the number of words. -/
def alloc (s : NockStack) (words : Nat) : Option (Nat × NockStack) :=
  if s.isWest then s.rawAllocWest words else s.rawAllocEast words

/-- `pre_copy`. -/
def preCopy (s : NockStack) : Option NockStack :=
  if s.pc then some s
  else do
    let words := if s.isWest then reserved + 1 else reserved
    s.allocWouldOom .framePush words
    let t := s.write (s.freeSlotOffset Saved.frame.slot) (s.mem (s.slotOffset Saved.frame.slot))
    let t := t.write (t.freeSlotOffset Saved.stack.slot) (t.mem (t.slotOffset Saved.stack.slot))
    let t := t.write (t.freeSlotOffset Saved.alloc.slot) (t.mem (t.slotOffset Saved.alloc.slot))
    return { t with
      pc := true
      stackOffset := if s.isWest then s.allocOffset - words else s.allocOffset + words }

/-- `raw_alloc_in_previous_frame_west`: the frame before is an east frame. -/
def rawAllocInPreviousFrameWest (s : NockStack) (words : Nat) : Option (Nat × NockStack) := do
  s.allocWouldOom_ .allocPreviousFrame .west words
  let prevAllocOffset := s.prevAllocOffset
  let newPrevAllocOffset := prevAllocOffset + words
  guard (newPrevAllocOffset < s.size)
  return (prevAllocOffset,
    s.write (s.prevPointerPointer .alloc) (s.derivePtr newPrevAllocOffset))

/-- `raw_alloc_in_previous_frame_east`: the frame before is a west frame. -/
def rawAllocInPreviousFrameEast (s : NockStack) (words : Nat) : Option (Nat × NockStack) := do
  s.allocWouldOom_ .allocPreviousFrame .east words
  let prevAllocOffset := s.prevAllocOffset
  guard (words ≤ prevAllocOffset)
  let newPrevAllocOffset := prevAllocOffset - words
  guard (newPrevAllocOffset < s.size)
  return (newPrevAllocOffset,
    s.write (s.prevPointerPointer .alloc) (s.derivePtr newPrevAllocOffset))

/-- `raw_alloc_in_previous_frame`. -/
def rawAllocInPreviousFrame (s : NockStack) (words : Nat) : Option (Nat × NockStack) := do
  let s ← s.preCopy
  if s.isWest then s.rawAllocInPreviousFrameWest words else s.rawAllocInPreviousFrameEast words

/-! ### Frames -/

/-- `frame_push`. -/
def framePush (s : NockStack) (numLocals : Nat) : Option NockStack := do
  guard (!s.pc)
  let words := numLocals + reserved
  s.allocWouldOom .framePush words
  let frameOffset := if s.isWest then s.allocOffset - words else s.allocOffset + words
  let t := { s with frameOffset, allocOffset := s.stackOffset, stackOffset := frameOffset }
  return ((t.write (t.slotOffset Saved.frame.slot) (s.derivePtr s.frameOffset)).write
    (t.slotOffset Saved.stack.slot) (s.derivePtr s.stackOffset)).write
    (t.slotOffset Saved.alloc.slot) (s.derivePtr s.allocOffset)

/-- `frame_pop`. -/
def framePop (s : NockStack) : Option NockStack :=
  let prevFramePtr := s.prevPointer .frame
  let prevStackPtr := s.prevPointer .stack
  let prevAllocPtr := s.prevPointer .alloc
  if prevFramePtr = 0 ∨ prevStackPtr = 0 ∨ prevAllocPtr = 0 then none
  else some { s with
    frameOffset := s.offsetOf prevFramePtr
    stackOffset := s.offsetOf prevStackPtr
    allocOffset := s.offsetOf prevAllocPtr
    pc := false }

/-! ### The lightweight stack -/

/-- Whether the lightweight stack grows eastward. -/
def stackIsWest (s : NockStack) : Bool := s.isWest && !s.pc || !s.isWest && s.pc

/-- `push_west`. -/
def pushWest (s : NockStack) (words : Nat) : Option (Nat × NockStack) := do
  s.allocWouldOom_ .push .west words
  let newStackOffset := s.stackOffset + words
  guard (newStackOffset ≤ s.limitOffset)
  return (s.stackOffset, { s with stackOffset := newStackOffset })

/-- `push_east`. -/
def pushEast (s : NockStack) (words : Nat) : Option (Nat × NockStack) := do
  s.allocWouldOom_ .push .east words
  guard (words ≤ s.stackOffset)
  let newStackOffset := s.stackOffset - words
  guard (s.limitOffset ≤ newStackOffset)
  return (newStackOffset, { s with stackOffset := newStackOffset })

/-- `push`. -/
def push (s : NockStack) (words : Nat) : Option (Nat × NockStack) :=
  if s.stackIsWest then s.pushWest words else s.pushEast words

/-- `pop_west`. -/
def popWest (s : NockStack) (words : Nat) : Option NockStack := do
  guard (words ≤ s.stackOffset)
  return { s with stackOffset := s.stackOffset - words }

/-- `pop_east`. -/
def popEast (s : NockStack) (words : Nat) : Option NockStack := do
  let s := { s with stackOffset := s.stackOffset + words }
  guard (s.stackOffset ≤ s.size)
  return s

/-- `pop`. -/
def pop (s : NockStack) (words : Nat) : Option NockStack :=
  if s.stackIsWest then s.popWest words else s.popEast words

end NockStack

end Nockchain.Mem.Stack
