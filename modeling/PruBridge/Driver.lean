import PruBridge.ControlBlock

/-!
The ring operations of the driver (`src/driver/pru_bridge.c`), one load or store of
the source for each `load` or `store` here, the `printk` arguments included.
-/
namespace PruBridge.Driver
open AtomicProgram

/-- `if(index_data < channel_size) index_data++;` -/
def countUp (c : Channel) : Code Unit := do
  let index ← load (.indexData c)
  let size ← load (.channelSize c)
  if index < size then do
    let index ← load (.indexData c)
    store (.indexData c) (index + 1)
  else
    pure ()

/-- The arguments of a `printk`: the byte at `cell`, the location again, the counter. -/
def printkRing (c : Channel) (cell : Code UInt32) : Code Unit := do
  let k ← cell
  let _ ← load (.data k)
  let _ ← cell
  let _ ← load (.indexData c)
  pure ()

def writeBuffer (c : Channel) (data : UInt8) : Code Unit := do
  let k ← tailCell c
  store (.data k) data
  countUp c
  printkRing c (tailCell c)
  advanceTail c

def readBuffer (c : Channel) : Code UInt8 := do
  let index ← load (.indexData c)
  if index ≠ 0 then do
    let k ← headCell c
    let value ← load (.data k)
    let index ← load (.indexData c)
    store (.indexData c) (index - 1)
    printkRing c (headCell c)
    advanceHead c
    pure value
  else
    pure 0

/-- `while(i < index)` of `flush_buffer`, from `i` with `left` rounds to go. -/
def flushLoop (c : Channel) : (left i : Nat) → (data : Nat → UInt8) → Code (Nat → UInt8)
  | 0, _, data => pure data
  | left + 1, i, data => do
    let value ← readBuffer c
    flushLoop c left (i + 1) (Function.update data i value)

/-- `data` is the memory from the caller's pointer on, before and after. The bound of the loop
    is the counter as an `int`, taken before the first read. -/
def flushBuffer (c : Channel) (data : Nat → UInt8) : Code (Nat → UInt8) := do
  let index ← load (.indexData c)
  flushLoop c index.toInt32.toNatClampNeg 0 data

/-- The RAM after a `write_buffer` on a channel of positive size. -/
def written (m : Ram) (c : Channel) (b : UInt8) : Ram :=
  { m with
    data := Function.update m.data (m.bufferStart c + m.tail c) b
    indexData := if m.indexData c < m.channelSize c then
      Function.update m.indexData c (m.indexData c + 1) else m.indexData
    tail := Function.update m.tail c ((m.tail c + 1) % m.channelSize c) }

def consumed (m : Ram) (c : Channel) : Ram :=
  { m with
    indexData := Function.update m.indexData c (m.indexData c - 1)
    head := Function.update m.head c ((m.head c + 1) % m.channelSize c) }

section fields
variable {m : Ram} {c d : Channel} {b : UInt8}

theorem written_tail : (written m c b).tail c = (m.tail c + 1) % m.channelSize c :=
  Function.update_self c _ _

theorem written_tail_of_ne (other : d ≠ c) : (written m c b).tail d = m.tail d :=
  Function.update_of_ne other _ _

theorem written_indexData (room : m.indexData c < m.channelSize c) :
    (written m c b).indexData c = m.indexData c + 1 := by
  unfold written
  rw [if_pos room]
  exact Function.update_self c _ _

theorem written_indexData_full (full : ¬ m.indexData c < m.channelSize c) :
    (written m c b).indexData c = m.indexData c := by
  unfold written
  rw [if_neg full]

theorem written_indexData_of_ne (other : d ≠ c) :
    (written m c b).indexData d = m.indexData d := by
  unfold written
  split
  · exact Function.update_of_ne other _ _
  · rfl

theorem consumed_indexData : (consumed m c).indexData c = m.indexData c - 1 :=
  Function.update_self c _ _

theorem consumed_head : (consumed m c).head c = (m.head c + 1) % m.channelSize c :=
  Function.update_self c _ _

theorem consumed_indexData_of_ne (other : d ≠ c) :
    (consumed m c).indexData d = m.indexData d :=
  Function.update_of_ne other _ _

theorem consumed_head_of_ne (other : d ≠ c) : (consumed m c).head d = m.head d :=
  Function.update_of_ne other _ _

end fields

theorem writeBuffer_run (m : Ram) (c : Channel) (b : UInt8) (pos : m.channelSize c ≠ 0) :
    (writeBuffer c b).run m = .ok ((), written m c b) := by
  by_cases room : m.indexData c < m.channelSize c
  · simp [writeBuffer, tailCell, countUp, printkRing, advanceTail, written, room, umod_pos _ pos]
  · simp [writeBuffer, tailCell, countUp, printkRing, advanceTail, written, room, umod_pos _ pos]

theorem readBuffer_run (m : Ram) (c : Channel) (pos : m.channelSize c ≠ 0)
    (some : m.indexData c ≠ 0) :
    (readBuffer c).run m = .ok (m.data (m.bufferStart c + m.head c), consumed m c) := by
  simp [readBuffer, headCell, printkRing, advanceHead, consumed, some, umod_pos _ pos]

theorem readBuffer_run_empty (m : Ram) (c : Channel) (none : m.indexData c = 0) :
    (readBuffer c).run m = .ok (0, m) := by
  simp [readBuffer, none]

end PruBridge.Driver
