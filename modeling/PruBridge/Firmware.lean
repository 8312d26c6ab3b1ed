import PruBridge.ControlBlock

/-!
The firmware side (`src/firmware/pru_bridge.c`). Lengths are `int`, and an `int` meets
a `uint32_t` as the source mixes them: the guard of `read_buffer` is signed, the
counter updates are unsigned.
-/
namespace PruBridge.Firmware
open AtomicProgram

/-- `for (i = 0 ; i < length ; i++)` of `read_buffer`, from `i` with `left` rounds to go. -/
def readLoop (c : Channel) : (left i : Nat) → Code Unit
  | 0, _ => pure ()
  | left + 1, i => do
    let k ← headCell c
    let value ← load (.data k)
    store (.pruData i) value
    advanceHead c
    readLoop c left (i + 1)

/-- The difference in the guard wraps here. In C it is undefined where it overflows. -/
def readBuffer (c : Channel) (length : Int32) : Code Int32 := do
  let index ← load (.indexData c)
  if index.toInt32 - length ≥ 0 then do
    readLoop c length.toNatClampNeg 0
    let index ← load (.indexData c)
    store (.indexData c) (index - length.toUInt32)
    pure 0
  else
    pure (-1)

/-- `for (i = length ; i > 0 ; i--)` of `write_buffer`. The bytes are taken from
    `*(pru_data+i)`, so from offset `length` down to offset 1. -/
def writeLoop (c : Channel) : (i : Nat) → Code Unit
  | 0 => pure ()
  | i + 1 => do
    let k ← tailCell c
    let value ← load (.pruData (i + 1))
    store (.data k) value
    advanceTail c
    writeLoop c i

/-- `if((index_data + length) < channel_size) index_data += length; else index_data =
    channel_size;` -/
def countUp (c : Channel) (length : Int32) : Code Unit := do
  let index ← load (.indexData c)
  let size ← load (.channelSize c)
  if index + length.toUInt32 < size then do
    let index ← load (.indexData c)
    store (.indexData c) (index + length.toUInt32)
  else do
    let size ← load (.channelSize c)
    store (.indexData c) size

def writeBuffer (c : Channel) (length : Int32) : Code Int32 := do
  writeLoop c length.toNatClampNeg
  countUp c length
  pure 0

def checkInit : Code Int32 := do
  let flag ← load .initCheck
  pure flag.toInt32

def checkIndex (c : Channel) : Code Int32 := do
  let size ← load (.channelSize c)
  let index ← load (.indexData c)
  pure (size - index).toInt32

def free (m : Ram) (c : Channel) : Int32 := (m.channelSize c - m.indexData c).toInt32

theorem checkIndex_run (m : Ram) (c : Channel) : (checkIndex c).run m = .ok (free m c, m) := by
  simp [checkIndex, free]

end PruBridge.Firmware
