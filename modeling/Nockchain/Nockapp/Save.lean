import Nockchain.Noun

/-!
# `Nockchain.Nockapp.Save`: checkpoints on disk

`Saver` of `save.rs` writes checkpoints to two files in turn and loads the later one of those that
are valid. A file is written in place, so that a save which is interrupted leaves a file of any
content.

The encodings are parameters (`Format`): what `bincode` decodes, the checksum of `blake3`, and the
jam of a noun. Checkpoints of versions 0 and 1, which hold one jam of both nouns, are only read.
-/

set_option autoImplicit false

namespace Nockchain.Nockapp

/-! ### Checkpoints -/

/-- `SaveableCheckpoint`. -/
structure SaveableCheckpoint where
  kerHash : Nat
  eventNum : Nat
  state : Noun
  cold : Noun
deriving DecidableEq

/-- `JammedCheckpointV2`. -/
structure JammedCheckpointV2 (Bytes : Type) where
  kerHash : Nat
  checksum : Nat
  eventNum : Nat
  coldJam : Bytes
  stateJam : Bytes

/-- `JammedCheckpointV2Envelope`. -/
structure JammedCheckpointV2Envelope (Bytes : Type) where
  magicBytes : Nat
  version : Nat
  payload : Bytes

/-- `JammedCheckpointV1` and `JammedCheckpointV0`, which has one more field that nothing reads. -/
structure JammedCheckpointV1 (Bytes : Type) where
  magicBytes : Nat
  version : Nat
  kerHash : Nat
  checksum : Nat
  eventNum : Nat
  jam : Bytes

/-- `JAM_MAGIC_BYTES`: `CHKJAM`. -/
def jamMagicBytes : Nat := 0x4d414a4b4843

def snapshotVersion0 : Nat := 0
def snapshotVersion1 : Nat := 1
def snapshotVersion2 : Nat := 2

/-- What the encodings do with byte strings. -/
class Format (Bytes : Type) where
  /-- `bincode` of the envelope. -/
  encodeEnvelope : JammedCheckpointV2Envelope Bytes → Bytes
  decodeEnvelope : Bytes → Option (JammedCheckpointV2Envelope Bytes)
  /-- `bincode` of the payload. -/
  encodePayload : JammedCheckpointV2 Bytes → Bytes
  decodePayload : Bytes → Option (JammedCheckpointV2 Bytes)
  /-- `bincode` of the older versions. -/
  decodeV1 : Bytes → Option (JammedCheckpointV1 Bytes)
  decodeV0 : Bytes → Option (JammedCheckpointV1 Bytes)
  /-- `checksum` of version 2, and of the older versions. -/
  checksum : Nat → Bytes → Bytes → Nat
  checksumV1 : Nat → Bytes → Nat
  jam : Noun → Bytes
  cue : Bytes → Option Noun
  decode_encodeEnvelope : ∀ e, decodeEnvelope (encodeEnvelope e) = some e
  decode_encodePayload : ∀ c, decodePayload (encodePayload c) = some c
  cue_jam : ∀ n, cue (jam n) = some n

section Checkpoint

variable {Bytes : Type} [Format Bytes]

/-- `JammedCheckpointV2::new`. -/
def JammedCheckpointV2.new (kerHash eventNum : Nat) (coldJam stateJam : Bytes) :
    JammedCheckpointV2 Bytes :=
  { kerHash, checksum := Format.checksum eventNum coldJam stateJam, eventNum, coldJam, stateJam }

/-- `validate` of version 2. -/
def JammedCheckpointV2.validate (c : JammedCheckpointV2 Bytes) : Bool :=
  c.checksum = Format.checksum c.eventNum c.coldJam c.stateJam

/-- `encode` of version 2. -/
def JammedCheckpointV2.encode (c : JammedCheckpointV2 Bytes) : Bytes :=
  Format.encodeEnvelope
    { magicBytes := jamMagicBytes, version := snapshotVersion2, payload := Format.encodePayload c }

/-- `load_from_file` of version 2, with `from_envelope` in it. -/
def JammedCheckpointV2.load (bytes : Bytes) : Option (JammedCheckpointV2 Bytes) := do
  let envelope ← Format.decodeEnvelope bytes
  guard (envelope.magicBytes = jamMagicBytes)
  guard (envelope.version = snapshotVersion2)
  let c ← Format.decodePayload envelope.payload
  guard c.validate
  return c

/-- `load_from_file` of the older versions. -/
def JammedCheckpointV1.load (decode : Bytes → Option (JammedCheckpointV1 Bytes)) (version : Nat)
    (bytes : Bytes) : Option (JammedCheckpointV1 Bytes) := do
  let c ← decode bytes
  guard (c.version = version)
  guard (c.checksum = Format.checksumV1 c.eventNum c.jam)
  return c

/-- `to_jammed_checkpoint`. -/
def SaveableCheckpoint.toJammed (c : SaveableCheckpoint) : JammedCheckpointV2 Bytes :=
  .new c.kerHash c.eventNum (Format.jam c.cold) (Format.jam c.state)

/-- The two nouns of an older checkpoint. One that is no cell is a panic. -/
def JammedCheckpointV1.toSaveable (c : JammedCheckpointV1 Bytes) : Option SaveableCheckpoint :=
  match Format.cue c.jam with
  | some (.cell state cold) => some ⟨c.kerHash, c.eventNum, state, cold⟩
  | _ => none

/-- `from_jammed_checkpoint_v2`. -/
def JammedCheckpointV2.toSaveable (c : JammedCheckpointV2 Bytes) : Option SaveableCheckpoint := do
  let state ← Format.cue c.stateJam
  let cold ← Format.cue c.coldJam
  return ⟨c.kerHash, c.eventNum, state, cold⟩

/-- `LoadedCheckpoint`. -/
inductive LoadedCheckpoint (Bytes : Type) where
  | v2 (c : JammedCheckpointV2 Bytes)
  | v1 (c : JammedCheckpointV1 Bytes)

/-- `event_num` of a loaded checkpoint. -/
def LoadedCheckpoint.eventNum : LoadedCheckpoint Bytes → Nat
  | .v2 c => c.eventNum
  | .v1 c => c.eventNum

/-- `into_saveable`. -/
def LoadedCheckpoint.intoSaveable : LoadedCheckpoint Bytes → Option SaveableCheckpoint
  | .v2 c => c.toSaveable
  | .v1 c => c.toSaveable

/-- `load_checkpoint_file`, of a file that may be missing. A checkpoint of version 0 is turned into
one of version 2. -/
def loadCheckpointFile (file : Option Bytes) : Option (LoadedCheckpoint Bytes) := do
  let bytes ← file
  match JammedCheckpointV2.load bytes with
  | some c => some (.v2 c)
  | none =>
    match JammedCheckpointV1.load Format.decodeV1 snapshotVersion1 bytes with
    | some c => some (.v1 c)
    | none => do
      let c ← JammedCheckpointV1.load Format.decodeV0 snapshotVersion0 bytes
      return .v2 (← c.toSaveable).toJammed

end Checkpoint

/-! ### The saver -/

/-- `WhichSnapshot`. -/
inductive WhichSnapshot where
  | snapshot0
  | snapshot1
deriving DecidableEq, Repr

/-- `WhichSnapshot::next`. -/
def WhichSnapshot.next : WhichSnapshot → WhichSnapshot
  | snapshot0 => snapshot1
  | snapshot1 => snapshot0

/-- The two files. -/
structure Disk (Bytes : Type) where
  file0 : Option Bytes
  file1 : Option Bytes

/-- The file at a path. -/
def Disk.read {Bytes : Type} (d : Disk Bytes) : WhichSnapshot → Option Bytes
  | .snapshot0 => d.file0
  | .snapshot1 => d.file1

/-- Writing a file. -/
def Disk.write {Bytes : Type} (d : Disk Bytes) (bytes : Bytes) : WhichSnapshot → Disk Bytes
  | .snapshot0 => { d with file0 := some bytes }
  | .snapshot1 => { d with file1 := some bytes }

/-- `Saver`. A waiter is the event number that it waits for. -/
structure Saver where
  saveToNext : WhichSnapshot
  waiters : List Nat
  lastEventNum : Nat
deriving DecidableEq, Repr

/-- `save_needed`. -/
def Saver.saveNeeded (s : Saver) (eventNum : Nat) : Bool := s.lastEventNum < eventNum

/-- `wait_for_snapshot`: whether the future is ready. -/
def Saver.waitForSnapshot (s : Saver) (eventNum : Nat) : Bool × Saver :=
  if eventNum ≤ s.lastEventNum then (true, s)
  else (false, { s with waiters := s.waiters ++ [eventNum] })

section Saver

variable {Bytes : Type} [Format Bytes]

/-- The checkpoint that `try_load` chooses, and the file to save to next. -/
def choose (c0 c1 : Option (LoadedCheckpoint Bytes)) :
    Option (LoadedCheckpoint Bytes × WhichSnapshot) :=
  match c0, c1 with
  | some c0, some c1 =>
    if c0.eventNum > c1.eventNum then some (c0, .snapshot1) else some (c1, .snapshot0)
  | some c0, none => some (c0, .snapshot1)
  | none, some c1 => some (c1, .snapshot0)
  | none, none => none

/-- `try_load`. An error is `none`. -/
def tryLoad (d : Disk Bytes) : Option (Saver × Option SaveableCheckpoint) :=
  if d.file0.isNone && d.file1.isNone then
    some ({ saveToNext := .snapshot0, waiters := [], lastEventNum := 0 }, none)
  else do
    let (c, saveToNext) ← choose (loadCheckpointFile d.file0) (loadCheckpointFile d.file1)
    let saveable ← c.intoSaveable
    return ({ saveToNext, waiters := [], lastEventNum := c.eventNum }, some saveable)

/-- `save` that is not interrupted, with the waiters whose futures resolve. -/
def Saver.save (s : Saver) (d : Disk Bytes) (c : SaveableCheckpoint) :
    Saver × Disk Bytes × List Nat :=
  let jammed : JammedCheckpointV2 Bytes := c.toJammed
  let (ready, stillWaiting) := s.waiters.partition (· ≤ c.eventNum)
  ({ saveToNext := s.saveToNext.next, waiters := stillWaiting, lastEventNum := c.eventNum },
    d.write jammed.encode s.saveToNext, ready)

end Saver

end Nockchain.Nockapp
