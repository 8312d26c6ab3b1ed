import PruBridge.ControlBlock
import Mathlib.Algebra.BigOperators.Fin
import Mathlib.Algebra.BigOperators.Group.Finset.Basic
import Mathlib.Algebra.Order.BigOperators.Group.Finset
import Mathlib.Data.Fintype.Fin
import Mathlib.Data.UInt
import Mathlib.Order.Interval.Finset.Fin
import Mathlib.Tactic.FinCases

/-!
How the driver fills the control block: `pru_bridge_probe` clears it, and a write to
the `init` file scans the sizes out of its text and lays the ten rings out one behind
the other. A text is the list of its bytes; the scan ends at its end or at a zero byte.
-/
namespace PruBridge.Driver
open AtomicProgram

abbrev Text := List UInt8

def isDigit (ch : UInt8) : Bool := 48 ≤ ch && ch ≤ 57

def digit (ch : UInt8) : Nat := ch.toNat - 48

def decimal (v : Nat) (digits : Text) : Nat := digits.foldl (fun v ch => 10 * v + digit ch) v

/-- `(uint32_t) simple_strtoul(p,&p,10)`: the value of the digits at `p`, and `p` past them. -/
def simpleStrtoul (p : Text) : UInt32 × Text :=
  (UInt32.ofNat (decimal 0 (p.takeWhile isDigit)), p.dropWhile isDigit)

def strlen (buf : Text) : Nat := (buf.takeWhile (· ≠ 0)).length

def storeSize (i : Nat) (value : UInt32) : Code Unit :=
  if h : i < 10 then do
    store (.channelSize ⟨i, h⟩) value
    let _ ← load (.channelSize ⟨i, h⟩)
    pure ()
  else
    .fault (.sizeIndex i)

/-- `while (*p)` -/
def scanSizes : (p : Text) → (i : Nat) → Code Unit
  | [], _ => pure ()
  | ch :: rest, i =>
    if ch = 0 then
      pure ()
    else if digits : isDigit ch then do
      storeSize i (simpleStrtoul (ch :: rest)).1
      scanSizes (simpleStrtoul (ch :: rest)).2 (i + 1)
    else
      scanSizes rest i
termination_by p => p.length
decreasing_by
  · simp only [simpleStrtoul, List.dropWhile_cons_of_pos digits, List.length_cons]
    exact Nat.lt_succ_of_le (List.dropWhile_sublist isDigit).length_le
  · exact Nat.lt_succ_self _

/-- `for(i=0;i<NUM_CHANNELS;i++)`, with `temp_index` as the 32 bits it is stored from. -/
def layoutLoop : List Channel → (tempIndex : UInt32) → Code Unit
  | [], _ => pure ()
  | i :: rest, tempIndex => do
    store (.bufferStart i) tempIndex
    let size ← load (.channelSize i)
    let _ ← load (.bufferStart i)
    store (.indexData i) 0
    store (.head i) 0
    store (.tail i) 0
    layoutLoop rest (tempIndex + size)

def initChannels (buf : Text) : Code Nat := do
  scanSizes buf 0
  layoutLoop (List.finRange 10) 0
  store .initCheck 1
  let _ ← load .initCheck
  pure (strlen buf + 1)

def clearLoop : List Channel → Code Unit
  | [] => pure ()
  | i :: rest => do
    store (.indexData i) 0
    store (.channelSize i) 0
    store (.bufferStart i) 0
    store (.head i) 0
    store (.tail i) 0
    clearLoop rest

/-- `for(i=0;i<TOTAL_BUFFER_SIZE;i++) ring->data[i] = 0;` with `left` rounds to go. -/
def clearData : (left : Nat) → Code Unit
  | 0 => pure ()
  | left + 1 => do
    store (.data (UInt32.ofNat (totalBufferSize - (left + 1)))) 0
    clearData left

/-- What `pru_bridge_probe` does to the shared RAM. -/
def probe : Code Unit := do
  store .initCheck 0
  clearLoop (List.finRange 10)
  clearData totalBufferSize

/-- The numbers in a text: the values of its maximal digit runs. A run in progress is
    carried along with its value so far. -/
def numbersFrom : Option Nat → Text → List Nat
  | run, [] => run.toList
  | run, ch :: rest =>
    if ch = 0 then run.toList
    else if isDigit ch then numbersFrom (some (10 * run.getD 0 + digit ch)) rest
    else run.toList ++ numbersFrom none rest

def numbers (buf : Text) : List Nat := numbersFrom none buf

def storeSizes : List Nat → (i : Nat) → Code Unit
  | [], _ => pure ()
  | v :: vs, i => do
    storeSize i (UInt32.ofNat v)
    storeSizes vs (i + 1)

theorem numbersFrom_run (v : Nat) (p : Text) :
    numbersFrom (some v) p =
      decimal v (p.takeWhile isDigit) :: numbersFrom none (p.dropWhile isDigit) := by
  induction p generalizing v with
  | nil => rfl
  | cons ch rest ih =>
    by_cases digits : isDigit ch
    · have nonzero : ch ≠ 0 := by
        intro zero
        subst zero
        cases digits
      simp only [numbersFrom, nonzero, digits, ↓reduceIte, List.takeWhile_cons_of_pos,
        List.dropWhile_cons_of_pos, ih, Option.getD_some, decimal, List.foldl_cons]
    · by_cases zero : ch = 0 <;>
        simp [numbersFrom, zero, digits, decimal, List.takeWhile_cons_of_neg,
          List.dropWhile_cons_of_neg]
      simp [isDigit, numbersFrom]

theorem numbers_digit {ch : UInt8} (digits : isDigit ch) (rest : Text) :
    numbers (ch :: rest) =
      decimal 0 ((ch :: rest).takeWhile isDigit) :: numbers ((ch :: rest).dropWhile isDigit) := by
  have nonzero : ch ≠ 0 := by
    intro zero
    subst zero
    cases digits
  rw [numbers, numbersFrom, if_neg nonzero, if_pos digits, numbersFrom_run,
    List.takeWhile_cons_of_pos digits, List.dropWhile_cons_of_pos digits]
  simp [decimal, numbers]

theorem scanSizes_eq (p : Text) (i : Nat) : scanSizes p i = storeSizes (numbers p) i := by
  induction p, i using scanSizes.induct with
  | case1 i => simp [scanSizes, numbers, numbersFrom, storeSizes]
  | case2 rest i => simp [scanSizes, numbers, numbersFrom, storeSizes]
  | case3 ch rest i nonzero digits ih =>
    rw [scanSizes, if_neg nonzero, dif_pos digits, ih, numbers_digit digits, storeSizes]
    rfl
  | case4 ch rest i nonzero digits ih =>
    rw [scanSizes, if_neg nonzero, dif_neg digits, ih, numbers, numbers, numbersFrom,
      if_neg nonzero, if_neg digits]
    rfl

def sizesFrom (vs : List Nat) (i : Nat) (old : Channel → UInt32) (c : Channel) : UInt32 :=
  if i ≤ c then (vs[c - i]?).elim (old c) UInt32.ofNat else old c

theorem sizesFrom_cons (v : Nat) (vs : List Nat) {i : Nat} (bound : i < 10)
    (old : Channel → UInt32) :
    sizesFrom vs (i + 1) (Function.update old ⟨i, bound⟩ (UInt32.ofNat v)) =
      sizesFrom (v :: vs) i old := by
  funext c
  by_cases same : c = ⟨i, bound⟩
  · subst same
    simp [sizesFrom]
  · have apart : c.val ≠ i := fun eq => same (Fin.ext eq)
    simp only [sizesFrom, Function.update_of_ne same]
    by_cases later : i + 1 ≤ c.val
    · have before : i ≤ c.val := by omega
      have position : c.val - i = (c.val - (i + 1)) + 1 := by omega
      simp only [later, before, ↓reduceIte, position, List.getElem?_cons_succ]
    · have earlier : ¬ i ≤ c.val := by omega
      simp only [later, earlier, ↓reduceIte]

theorem storeSizes_run (vs : List Nat) (i : Nat) (m : Ram) (few : i + vs.length ≤ 10) :
    (storeSizes vs i).run m =
      .ok ((), { m with channelSize := sizesFrom vs i m.channelSize }) := by
  induction vs generalizing i m with
  | nil =>
    have same : sizesFrom [] i m.channelSize = m.channelSize := by
      funext c
      simp [sizesFrom]
    rw [same]
    rfl
  | cons v vs ih =>
    simp only [List.length_cons] at few
    have bound : i < 10 := by omega
    have first : (storeSize i (UInt32.ofNat v)).run m = .ok ((), { m with
        channelSize := Function.update m.channelSize ⟨i, bound⟩ (UInt32.ofNat v) }) := by
      simp [storeSize, bound]
    rw [storeSizes, Prog.run_bind_ok first, ih _ _ (by omega), sizesFrom_cons]

def startOf (size : Channel → Nat) (c : Channel) : Nat := ∑ j ∈ Finset.Iio c, size j

theorem startOf_list (size : Channel → Nat) (c : Channel) :
    startOf size c = (((List.finRange 10).take c).map size).sum := by
  fin_cases c <;> rfl

theorem startOf_add_size (size : Channel → Nat) (c : Channel) :
    startOf size c + size c = ∑ j ∈ Finset.Iic c, size j := by
  rw [startOf, ← Finset.Iio_insert, Finset.sum_insert (by simp), Nat.add_comm]

theorem startOf_add_size_le (size : Channel → Nat) (c : Channel) :
    startOf size c + size c ≤ ∑ j, size j := by
  rw [startOf_add_size]
  exact Finset.sum_le_sum_of_subset (Finset.subset_univ _)

theorem startOf_add_size_le_start (size : Channel → Nat) {c d : Channel} (less : c < d) :
    startOf size c + size c ≤ startOf size d := by
  rw [startOf_add_size, startOf]
  apply Finset.sum_le_sum_of_subset
  intro j mem
  simp only [Finset.mem_Iic, Finset.mem_Iio] at *
  exact lt_of_le_of_lt mem less

def startsFrom (size : Channel → UInt32) :
    List Channel → UInt32 → (Channel → UInt32) → Channel → UInt32
  | [], _, old => old
  | i :: rest, tempIndex, old =>
    startsFrom size rest (tempIndex + size i) (Function.update old i tempIndex)

def clearedFor (is : List Channel) (old : Channel → UInt32) (c : Channel) : UInt32 :=
  if c ∈ is then 0 else old c

theorem clearedFor_nil (old : Channel → UInt32) : clearedFor [] old = old := by
  funext c
  simp [clearedFor]

theorem clearedFor_cons (i : Channel) (is : List Channel) (old : Channel → UInt32) :
    clearedFor is (Function.update old i 0) = clearedFor (i :: is) old := by
  funext c
  by_cases same : c = i <;> simp [clearedFor, same]

theorem clearedFor_all (old : Channel → UInt32) :
    clearedFor (List.finRange 10) old = fun _ => 0 := by
  funext c
  simp [clearedFor]

theorem startsFrom_all (size old : Channel → UInt32) :
    startsFrom size (List.finRange 10) 0 old =
      fun c => UInt32.ofNat (startOf (fun j => (size j).toNat) c) := by
  have order : List.finRange 10 = [0, 1, 2, 3, 4, 5, 6, 7, 8, 9] := rfl
  funext c
  rw [startOf_list, order]
  simp only [startsFrom]
  fin_cases c <;> simp [Function.update, UInt32.ofNat_add, UInt32.add_assoc]

theorem layoutLoop_run (is : List Channel) (tempIndex : UInt32) (m : Ram) :
    (layoutLoop is tempIndex).run m = .ok ((), { m with
      bufferStart := startsFrom m.channelSize is tempIndex m.bufferStart
      indexData := clearedFor is m.indexData
      head := clearedFor is m.head
      tail := clearedFor is m.tail }) := by
  induction is generalizing tempIndex m with
  | nil => simp [layoutLoop, startsFrom, clearedFor_nil]
  | cons i is ih => simp [layoutLoop, startsFrom, ih, clearedFor_cons]

/-- The control block a completed init leaves, for the sizes it found in `channel_size`. -/
def laidOut (m : Ram) (size : Channel → UInt32) : Ram :=
  { m with
    initCheck := 1
    channelSize := size
    bufferStart := fun c => UInt32.ofNat (startOf (fun j => (size j).toNat) c)
    indexData := fun _ => 0
    head := fun _ => 0
    tail := fun _ => 0 }

/-- The sizes after a text: its numbers, and the old sizes for the channels it does not reach. -/
def sizesAfter (buf : Text) (old : Channel → UInt32) : Channel → UInt32 :=
  sizesFrom (numbers buf) 0 old

theorem initChannels_run (buf : Text) (m : Ram) (few : (numbers buf).length ≤ 10) :
    (initChannels buf).run m =
      .ok (strlen buf + 1, laidOut m (sizesAfter buf m.channelSize)) := by
  have scan : (scanSizes buf 0).run m =
      .ok ((), { m with channelSize := sizesAfter buf m.channelSize }) := by
    rw [scanSizes_eq]
    exact storeSizes_run (numbers buf) 0 m (by omega)
  rw [initChannels, Prog.run_bind_ok scan, Prog.run_bind_ok (layoutLoop_run _ _ _)]
  simp [laidOut, startsFrom_all, clearedFor_all]

end PruBridge.Driver
