import PruBridge.AtomicProgram
import Mathlib.Algebra.GroupWithZero.Nat

/-!
The shared RAM of the bridge: the control block, the ring bytes behind it, and the
array the PRU program hands to the firmware. Words are 32 bits on both processors,
and so are the offsets into the ring bytes. Only the offsets below `totalBufferSize` are
bytes of the source's `ring->data`: the others leave the structure, and the last 204 of
them come round to the control words. Here they are cells of their own, so a run of the
model is one of the source as long as it reaches none of them.
-/
namespace PruBridge
open AtomicProgram

/-- `NUM_CHANNELS` is 10 in the driver, the firmware and the C library. -/
abbrev Channel := Fin 10

instance neZero_channels : NeZero 10 := ⟨Nat.succ_ne_zero 9⟩

def totalBufferSize : Nat := 11500

/-- `PAGE_SIZE` of the kernel. -/
def pageSize : Nat := 4096

inductive Cell where
  | initCheck
  | channelSize (i : Channel)
  | indexData (i : Channel)
  | bufferStart (i : Channel)
  | head (i : Channel)
  | tail (i : Channel)
  | data (k : UInt32)
  | pruData (i : Nat)
  deriving DecidableEq

abbrev Cell.Val : Cell → Type
  | .data _ => UInt8
  | .pruData _ => UInt8
  | _ => UInt32

/-- `struct control_channel`, the bytes of `struct circular_buffers`, and the PRU memory
    from the firmware's `pru_data` pointer on. -/
structure Ram where
  initCheck : UInt32
  channelSize : Channel → UInt32
  indexData : Channel → UInt32
  bufferStart : Channel → UInt32
  head : Channel → UInt32
  tail : Channel → UInt32
  data : UInt32 → UInt8
  pruData : Nat → UInt8

@[simp] def Ram.get (m : Ram) : (c : Cell) → c.Val
  | .initCheck => m.initCheck
  | .channelSize i => m.channelSize i
  | .indexData i => m.indexData i
  | .bufferStart i => m.bufferStart i
  | .head i => m.head i
  | .tail i => m.tail i
  | .data k => m.data k
  | .pruData i => m.pruData i

@[simp] def Ram.set (m : Ram) : (c : Cell) → c.Val → Ram
  | .initCheck, v => { m with initCheck := v }
  | .channelSize i, v => { m with channelSize := Function.update m.channelSize i v }
  | .indexData i, v => { m with indexData := Function.update m.indexData i v }
  | .bufferStart i, v => { m with bufferStart := Function.update m.bufferStart i v }
  | .head i, v => { m with head := Function.update m.head i v }
  | .tail i, v => { m with tail := Function.update m.tail i v }
  | .data k, v => { m with data := Function.update m.data k v }
  | .pruData i, v => { m with pruData := Function.update m.pruData i v }

theorem Ram.get_set_of_ne (m : Ram) (c d : Cell) (v : c.Val) (other : d ≠ c) :
    (m.set c v).get d = m.get d := by
  cases c <;> cases d <;> simp_all [Function.update_of_ne]

instance : Memory Ram Cell Cell.Val := ⟨Ram.get, Ram.set, Ram.get_set_of_ne⟩

instance : ReadsBack Ram where
  get_set_self m c v := by
    cases c <;> first | rfl | exact Function.update_self _ _ _

@[simp] theorem memory_get (m : Ram) (c : Cell) : Memory.get m c = m.get c := rfl

@[simp] theorem memory_set (m : Ram) (c : Cell) (v : c.Val) : Memory.set m c v = m.set c v := rfl

def dataCell : Access Cell Cell.Val → Option UInt32
  | .load (.data k) => some k
  | .store (.data k) _ => some k
  | _ => none

/-- What ends a run: `%` by zero, and a store to `channel_size[i]` past its ten words. -/
inductive Fault where
  | moduloByZero
  | sizeIndex (i : Nat)
  deriving DecidableEq

abbrev Code := Prog Cell Cell.Val Fault

@[simp] def load (c : Cell) : Code c.Val := .load c .ret

@[simp] def store (c : Cell) (v : c.Val) : Code Unit := .store c v (.ret ())

def umod (a n : UInt32) : Code UInt32 :=
  if n = 0 then .fault .moduloByZero else .ret (a % n)

theorem umod_zero (a : UInt32) : umod a 0 = .fault .moduloByZero := rfl

theorem umod_pos {n : UInt32} (a : UInt32) (pos : n ≠ 0) : umod a n = .ret (a % n) := by
  simp [umod, pos]

def tailCell (c : Channel) : Code UInt32 := do
  let start ← load (.bufferStart c)
  let tail ← load (.tail c)
  pure (start + tail)

def headCell (c : Channel) : Code UInt32 := do
  let start ← load (.bufferStart c)
  let head ← load (.head c)
  pure (start + head)

/-- `tail[ring_no] = (tail[ring_no]+1)%(channel_size[ring_no]);` -/
def advanceTail (c : Channel) : Code Unit := do
  let tail ← load (.tail c)
  let size ← load (.channelSize c)
  let tail' ← umod (tail + 1) size
  store (.tail c) tail'

/-- `head[ring_no] = (head[ring_no]+1)%(channel_size[ring_no]);` -/
def advanceHead (c : Channel) : Code Unit := do
  let head ← load (.head c)
  let size ← load (.channelSize c)
  let head' ← umod (head + 1) size
  store (.head c) head'

end PruBridge
