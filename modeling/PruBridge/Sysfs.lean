import PruBridge.Driver
import PruBridge.Initialisation

/-!
The sysfs files of the driver. A write hands its handler a text, a read gets a text
back; the twenty channel handlers stand here under their own names, as the source
registers them with `DEVICE_ATTR`. No handler looks at `init_check`.
-/
namespace PruBridge.Driver
open AtomicProgram

/-- `(uint8_t)buf[0]` is the byte that ends the text when the text is empty. -/
def writeBufferWrapper (ringNo : Channel) (buf : Text) : Code Unit :=
  writeBuffer ringNo (buf.headD 0)

def chWrite (ringNo : Channel) (buf : Text) : Code Nat := do
  writeBufferWrapper ringNo buf
  pure (strlen buf + 1)

/-- `scnprintf(buf, PAGE_SIZE,"%c\n",read_buffer(ring_no))`: what it leaves in `buf`; the
    value returned is the number of these bytes. -/
def chRead (ringNo : Channel) : Code Text := do
  let value ← readBuffer ringNo
  pure [value, 10]

def ch1Write : Text → Code Nat := chWrite 0
def ch1Read : Code Text := chRead 0
def ch2Write : Text → Code Nat := chWrite 1
def ch2Read : Code Text := chRead 1
def ch3Write : Text → Code Nat := chWrite 2
def ch3Read : Code Text := chRead 2
def ch4Write : Text → Code Nat := chWrite 3
def ch4Read : Code Text := chRead 3
def ch5Write : Text → Code Nat := chWrite 4
def ch5Read : Code Text := chRead 4
def ch6Write : Text → Code Nat := chWrite 5
def ch6Read : Code Text := chRead 5
def ch7Write : Text → Code Nat := chWrite 6
def ch7Read : Code Text := chRead 6
def ch8Write : Text → Code Nat := chWrite 7
def ch8Read : Code Text := chRead 7
def ch9Write : Text → Code Nat := chWrite 8
def ch9Read : Code Text := chRead 7
def ch10Write : Text → Code Nat := chWrite 9
def ch10Read : Code Text := chRead 7

def writeHandler : Channel → Text → Code Nat
  | 0 => ch1Write
  | 1 => ch2Write
  | 2 => ch3Write
  | 3 => ch4Write
  | 4 => ch5Write
  | 5 => ch6Write
  | 6 => ch7Write
  | 7 => ch8Write
  | 8 => ch9Write
  | 9 => ch10Write

def readHandler : Channel → Code Text
  | 0 => ch1Read
  | 1 => ch2Read
  | 2 => ch3Read
  | 3 => ch4Read
  | 4 => ch5Read
  | 5 => ch6Read
  | 6 => ch7Read
  | 7 => ch8Read
  | 8 => ch9Read
  | 9 => ch10Read

/-- The ring that the file `chN_read` reads: the handlers of the last two files name ring 7. -/
def served (n : Channel) : Channel := if n = 8 ∨ n = 9 then 7 else n

theorem writeHandler_eq (n : Channel) (buf : Text) : writeHandler n buf = chWrite n buf := by
  fin_cases n <;> rfl

theorem readHandler_eq (n : Channel) : readHandler n = chRead (served n) := by
  fin_cases n <;> rfl

inductive Reply where
  | count (n : Nat)
  | text (out : Text)
  deriving DecidableEq

inductive ChannelCall where
  | write (n : Channel) (buf : Text)
  | read (n : Channel)

def ChannelCall.body : ChannelCall → Code Reply
  | .write n buf => .count <$> writeHandler n buf
  | .read n => .text <$> readHandler n

inductive Call where
  | init (buf : Text)
  | channel (call : ChannelCall)

def Call.body : Call → Code Reply
  | .init buf => .count <$> initChannels buf
  | .channel call => call.body

def session : List Call → Code (List Reply)
  | [] => pure []
  | call :: rest => do
    let reply ← call.body
    let replies ← session rest
    pure (reply :: replies)

/-- An init text holds at most ten numbers; the other files take any text. -/
def Call.Short : Call → Prop
  | .init buf => (numbers buf).length ≤ 10
  | .channel _ => True

instance (call : Call) : Decidable call.Short := by
  cases call <;> simp only [Call.Short] <;> infer_instance

theorem chWrite_run (m : Ram) (c : Channel) (buf : Text) (pos : m.channelSize c ≠ 0) :
    (chWrite c buf).run m = .ok (strlen buf + 1, written m c (buf.headD 0)) := by
  rw [chWrite, writeBufferWrapper, Prog.run_bind_ok (writeBuffer_run m c _ pos)]
  rfl

theorem chRead_run (m : Ram) (c : Channel) (pos : m.channelSize c ≠ 0) (some : m.indexData c ≠ 0) :
    (chRead c).run m = .ok ([m.data (m.bufferStart c + m.head c), 10], consumed m c) := by
  rw [chRead, Prog.run_bind_ok (readBuffer_run m c pos some)]
  rfl

theorem chRead_run_empty (m : Ram) (c : Channel) (none : m.indexData c = 0) :
    (chRead c).run m = .ok ([0, 10], m) := by
  rw [chRead, Prog.run_bind_ok (readBuffer_run_empty m c none)]
  rfl

section calls
variable (m : Ram)

theorem init_run (buf : Text) (few : (numbers buf).length ≤ 10) : (Call.init buf).body.run m =
    .ok (.count (strlen buf + 1), laidOut m (sizesAfter buf m.channelSize)) :=
  Prog.run_map_ok (initChannels_run buf m few)

theorem write_run (n : Channel) (buf : Text) (pos : m.channelSize n ≠ 0) :
    (Call.channel (.write n buf)).body.run m =
      .ok (.count (strlen buf + 1), written m n (buf.headD 0)) := by
  have run := chWrite_run m n buf pos
  rw [← writeHandler_eq] at run
  exact Prog.run_map_ok run

theorem write_run_zero (n : Channel) (buf : Text) (zero : m.channelSize n = 0) :
    (Call.channel (.write n buf)).body.run m = .error .moduloByZero := by
  have fault : (writeBuffer n (buf.headD 0)).run m = .error .moduloByZero := by
    simp [writeBuffer, tailCell, countUp, printkRing, advanceTail, zero, umod_zero]
  rw [Call.body, ChannelCall.body, writeHandler_eq, chWrite, writeBufferWrapper,
    map_eq_pure_bind, Prog.run_bind, Prog.run_bind, fault]

theorem read_run (n : Channel) (pos : m.channelSize (served n) ≠ 0)
    (some : m.indexData (served n) ≠ 0) : (Call.channel (.read n)).body.run m =
      .ok (.text [m.data (m.bufferStart (served n) + m.head (served n)), 10],
        consumed m (served n)) := by
  have run := chRead_run m (served n) pos some
  rw [← readHandler_eq] at run
  exact Prog.run_map_ok run

theorem read_run_empty (n : Channel) (none : m.indexData (served n) = 0) :
    (Call.channel (.read n)).body.run m = .ok (.text [0, 10], m) := by
  have run := chRead_run_empty m (served n) none
  rw [← readHandler_eq] at run
  exact Prog.run_map_ok run

end calls

theorem clearLoop_run (is : List Channel) (m : Ram) :
    (clearLoop is).run m = .ok ((), { m with
      indexData := clearedFor is m.indexData
      channelSize := clearedFor is m.channelSize
      bufferStart := clearedFor is m.bufferStart
      head := clearedFor is m.head
      tail := clearedFor is m.tail }) := by
  induction is generalizing m with
  | nil => simp [clearLoop, clearedFor_nil]
  | cons i is ih => simp [clearLoop, ih, clearedFor_cons]

theorem clearData_run (left : Nat) (m : Ram) :
    ∃ data, (clearData left).run m = .ok ((), { m with data := data }) := by
  induction left generalizing m with
  | zero => exact ⟨m.data, rfl⟩
  | succ left ih =>
    obtain ⟨data, run⟩ := ih (m.set (.data (UInt32.ofNat (totalBufferSize - (left + 1)))) 0)
    exact ⟨data, run⟩

structure Cleared (m : Ram) : Prop where
  initCheck : m.initCheck = 0
  channelSize : m.channelSize = fun _ => 0
  bufferStart : m.bufferStart = fun _ => 0
  indexData : m.indexData = fun _ => 0
  head : m.head = fun _ => 0
  tail : m.tail = fun _ => 0

theorem probe_run (m₀ : Ram) : ∃ m, probe.run m₀ = .ok ((), m) ∧ Cleared m := by
  have flag : (store .initCheck 0).run m₀ = .ok ((), m₀.set .initCheck 0) := rfl
  have words := clearLoop_run (List.finRange 10) (m₀.set .initCheck 0)
  simp only [clearedFor_all] at words
  obtain ⟨data, bytes⟩ := clearData_run totalBufferSize { m₀.set .initCheck 0 with
    indexData := fun _ => 0
    channelSize := fun _ => 0
    bufferStart := fun _ => 0
    head := fun _ => 0
    tail := fun _ => 0 }
  rw [probe, Prog.run_bind_ok flag, Prog.run_bind_ok words, bytes]
  exact ⟨_, rfl, rfl, rfl, rfl, rfl, rfl, rfl⟩

def AfterProbe (m : Ram) : Prop := ∃ m₀, probe.run m₀ = .ok ((), m)

theorem AfterProbe.cleared {m : Ram} (probed : AfterProbe m) : Cleared m := by
  obtain ⟨m₀, run⟩ := probed
  obtain ⟨m', again, cleared⟩ := probe_run m₀
  rw [run] at again
  cases again
  exact cleared

theorem exists_afterProbe : ∃ m, AfterProbe m := by
  let m₀ : Ram :=
    ⟨0, fun _ => 0, fun _ => 0, fun _ => 0, fun _ => 0, fun _ => 0, fun _ => 0, fun _ => 0⟩
  obtain ⟨m, run, -⟩ := probe_run m₀
  exact ⟨m, m₀, run⟩

end PruBridge.Driver
