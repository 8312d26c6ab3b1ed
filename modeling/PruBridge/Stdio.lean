import PruBridge.TextBuffers

/-!
The C library's functions with their stdio calls. What `fopen`, `fwrite` and `fread` do is
decided outside, call by call, and logged. The streams of the channel files are open. Under
buffering an `fwrite` may take bytes that the `rewind` or `fclose` right after it passes on, or
fails to: the two count as one call here, and what it loses are the bytes that have not reached
the file after both. The `fflush` after an `fread` has nothing to pass on.
-/
namespace PruBridge.Library.Stdio
open Driver

inductive Event where
  | fopen (path : String) (opened : Bool)
  | fwrite (buffer : Text) (lost : Nat)
  | fread (got : Option UInt8)
  deriving DecidableEq

abbrev Log := List Event

/-- What the n-th call does, if it is of this kind. `lost` counts the bytes at the end of its
    buffer that do not reach the file, by the `fwrite` or by the flush that follows it. -/
structure Outcomes where
  opens : Nat → Bool
  lost : Nat → Nat
  gives : Nat → Option UInt8

section calls
variable (o : Outcomes)

def fopen (path : String) (log : Log) : Bool × Log :=
  (o.opens log.length, log ++ [.fopen path (o.opens log.length)])

def fwrite (buffer : Text) (log : Log) : Log := log ++ [.fwrite buffer (o.lost log.length)]

def fread (log : Log) : Option UInt8 × Log :=
  (o.gives log.length, log ++ [.fread (o.gives log.length)])

def initFile : String := "/sys/devices/virtual/misc/pru_bridge/init"

def pruBridgeInit (channelSizes : Channel → Int32) : Int32 × Log :=
  match Library.pruBridgeInit channelSizes with
  | none => (1, [])
  | some input =>
    let (fp, log) := fopen o initFile []
    if fp then (0, fwrite o input log) else (0, log)

def writeLoop (pruData : Nat → UInt8) : (left i : Nat) → Log → Log
  | 0, _, log => log
  | left + 1, i, log => writeLoop pruData left (i + 1) (fwrite o [pruData i] log)

def pruWrite (pruData : Nat → UInt8) (length : Int32) : Int32 × Log :=
  (length, writeLoop o pruData length.toNatClampNeg 0 [])

/-- `while(i<length)` of `pru_read`. An `fread` that gets nothing leaves `pru_data[i]`. -/
def readLoop : (left i : Nat) → (Nat → UInt8) → Log → (Nat → UInt8) × Log
  | 0, _, pruData, log => (pruData, log)
  | left + 1, i, pruData, log =>
    let (got, log) := fread o log
    readLoop left (i + 1) (Function.update pruData i (got.getD (pruData i))) log

def pruRead (pruData : Nat → UInt8) (length : Int32) : Int32 × (Nat → UInt8) × Log :=
  (length, readLoop o length.toNatClampNeg 0 pruData [])

end calls

def Event.written : Event → Text
  | .fwrite buffer lost => buffer.take (buffer.length - lost)
  | _ => []

def Event.got : Event → Option UInt8
  | .fread got => got
  | _ => none

def written (log : Log) : Text := log.flatMap Event.written

def received (log : Log) : List UInt8 := log.filterMap Event.got

section logs
variable (o : Outcomes)

theorem writeLoop_log (pruData : Nat → UInt8) (left i : Nat) (log : Log) :
    writeLoop o pruData left i log = log ++
      (List.range left).map fun j => .fwrite [pruData (i + j)] (o.lost (log.length + j)) := by
  induction left generalizing i log with
  | zero => exact (List.append_nil log).symm
  | succ left ih =>
    unfold writeLoop
    rw [ih, List.range_succ_eq_map]
    simp [fwrite, Function.comp_def, Nat.add_assoc, Nat.add_comm 1]

theorem readLoop_log (left i : Nat) (pruData : Nat → UInt8) (log : Log) :
    (readLoop o left i pruData log).2 =
      log ++ (List.range left).map fun j => .fread (o.gives (log.length + j)) := by
  induction left generalizing i pruData log with
  | zero => exact (List.append_nil log).symm
  | succ left ih =>
    unfold readLoop
    rw [ih, List.range_succ_eq_map]
    simp [fread, Function.comp_def, Nat.add_assoc, Nat.add_comm 1]

theorem written_bytes (byte : Nat → UInt8) (lost : Nat → Nat) (calls : List Nat) :
    (written (calls.map fun j => .fwrite [byte j] (lost j))).length =
      calls.countP fun j => lost j = 0 := by
  induction calls with
  | nil => rfl
  | cons j rest ih =>
    have first : (written ((j :: rest).map fun j => .fwrite [byte j] (lost j))).length =
        ([byte j].take (1 - lost j)).length +
          (written (rest.map fun j => .fwrite [byte j] (lost j))).length := by
      simp [written, Event.written]
    rw [first, ih]
    by_cases whole : lost j = 0
    · rw [List.countP_cons_of_pos (by simp [whole]), whole]
      exact Nat.add_comm 1 _
    · have none : 1 - lost j = 0 := by omega
      rw [List.countP_cons_of_neg (by simp [whole]), none]
      exact Nat.zero_add _

theorem pruWrite_written (pruData : Nat → UInt8) (length : Int32) :
    (written (pruWrite o pruData length).2).length =
      (List.range length.toNatClampNeg).countP fun j => o.lost j = 0 := by
  have log := writeLoop_log o pruData length.toNatClampNeg 0 []
  simp only [List.nil_append, List.length_nil, Nat.zero_add] at log
  unfold pruWrite
  rw [log, written_bytes]

theorem pruRead_received (pruData : Nat → UInt8) (length : Int32) :
    (received (pruRead o pruData length).2.2).length =
      (List.range length.toNatClampNeg).countP fun j => (o.gives j).isSome := by
  have log := readLoop_log o length.toNatClampNeg 0 pruData []
  simp only [List.nil_append, List.length_nil, Nat.zero_add] at log
  unfold pruRead
  rw [log, received, List.filterMap_map]
  exact List.length_filterMap_eq_countP

theorem readLoop_fills (left i : Nat) (pruData : Nat → UInt8) (log : Log) (j : Nat) :
    (readLoop o left i pruData log).1 j =
      if i ≤ j ∧ j < i + left then (o.gives (log.length + (j - i))).getD (pruData j)
      else pruData j := by
  induction left generalizing i pruData log with
  | zero =>
    rw [if_neg (by omega)]
    rfl
  | succ left ih =>
    unfold readLoop
    rw [ih]
    by_cases here : j = i
    · subst here
      rw [if_neg (by omega), if_pos (by omega), Nat.sub_self]
      exact Function.update_self j _ pruData
    · rw [Function.update_of_ne here]
      by_cases inside : i ≤ j ∧ j < i + (left + 1)
      · have call : log.length + 1 + (j - (i + 1)) = log.length + (j - i) := by omega
        rw [if_pos (by omega), if_pos inside, ← call]
        simp [fread]
      · rw [if_neg (by omega), if_neg inside]

def bytesRead (pruData : Nat → UInt8) (length : Int32) : List UInt8 :=
  (List.range length.toNatClampNeg).map (pruRead o pruData length).2.1

theorem bytesRead_eq {results : List UInt8} {length : Int32}
    (count : length.toNatClampNeg = results.length)
    (gives : ∀ j < results.length, o.gives j = results[j]?) (pruData : Nat → UInt8) :
    bytesRead o pruData length = results := by
  apply List.ext_getElem
  · rw [bytesRead, List.length_map, List.length_range, count]
  · intro j _ inside
    have fills := readLoop_fills o length.toNatClampNeg 0 pruData [] j
    have got := gives j inside
    rw [List.getElem?_eq_getElem inside] at got
    rw [if_pos (by omega), List.length_nil, Nat.zero_add, Nat.sub_zero, got] at fills
    simpa [bytesRead, pruRead] using fills

end logs

section truth
variable (o : Outcomes)

/-- A return of 0 means that the whole size text is in the init file. -/
def InitTruthful (channelSizes : Channel → Int32) : Prop :=
  (pruBridgeInit o channelSizes).1 = 0 →
    Library.pruBridgeInit channelSizes = some (written (pruBridgeInit o channelSizes).2)

def WriteTruthful (pruData : Nat → UInt8) (length : Int32) : Prop :=
  (pruWrite o pruData length).1.toInt = (written (pruWrite o pruData length).2).length

def ReadTruthful (pruData : Nat → UInt8) (length : Int32) : Prop :=
  (pruRead o pruData length).1.toInt = (received (pruRead o pruData length).2.2).length

instance (channelSizes : Channel → Int32) : Decidable (InitTruthful o channelSizes) :=
  inferInstanceAs (Decidable (_ = _ → _ = _))

instance (pruData : Nat → UInt8) (length : Int32) : Decidable (WriteTruthful o pruData length) :=
  inferInstanceAs (Decidable (_ = _))

instance (pruData : Nat → UInt8) (length : Int32) : Decidable (ReadTruthful o pruData length) :=
  inferInstanceAs (Decidable (_ = _))

theorem countP_range (p : Nat → Bool) (n : Nat) :
    (List.range n).countP p = n ↔ ∀ j < n, p j = true := by
  have all := List.countP_eq_length (p := p) (l := List.range n)
  rw [List.length_range] at all
  rw [all]
  simp only [List.mem_range]

theorem initTruthful_iff (channelSizes : Channel → Int32) :
    InitTruthful o channelSizes ↔
      (TotalPasses channelSizes → (∀ i, 0 ≤ channelSizes i) →
        o.opens 0 = true ∧ o.lost 1 = 0) := by
  unfold InitTruthful pruBridgeInit
  rw [← sizeCheck_le_iff, pruBridgeInit_eq]
  by_cases valid : sizeCheck channelSizes ≤ 11500 ∧ ∀ i, 0 ≤ channelSizes i
  · generalize ((List.finRange 10).flatMap fun i => sprintfD (channelSizes i) ++ [32]) = sizes
    rw [if_pos valid]
    cases opened : o.opens 0 with
    | false => simp [fopen, opened, written, Event.written, valid]
    | true =>
      have whole : sizes.length + 1 ≤ sizes.length + 1 - o.lost 1 ↔ o.lost 1 = 0 := by omega
      simp [fopen, fwrite, opened, written, Event.written, valid, whole]
  · rw [if_neg valid]
    constructor
    · intro _ total nonneg
      exact absurd ⟨total, nonneg⟩ valid
    · intro _ refused
      cases refused

theorem writeTruthful_iff (pruData : Nat → UInt8) {length : Int32} (nonneg : 0 ≤ length) :
    WriteTruthful o pruData length ↔ ∀ j < length.toNatClampNeg, o.lost j = 0 := by
  have value : (pruWrite o pruData length).1.toInt = length.toNatClampNeg :=
    MachineWords.toInt_length nonneg
  unfold WriteTruthful
  rw [value, pruWrite_written, Int.natCast_inj, eq_comm, countP_range]
  simp only [decide_eq_true_eq]

theorem readTruthful_iff (pruData : Nat → UInt8) {length : Int32} (nonneg : 0 ≤ length) :
    ReadTruthful o pruData length ↔ ∀ j < length.toNatClampNeg, (o.gives j).isSome := by
  have value : (pruRead o pruData length).1.toInt = length.toNatClampNeg :=
    MachineWords.toInt_length nonneg
  unfold ReadTruthful
  rw [value, pruRead_received, Int.natCast_inj, eq_comm, countP_range]

/-- The library tells the truth on exactly these outcomes: an array whose total passes needs the
    text to fit its buffers and, if it is accepted, the init file to open and take the whole
    text, and every byte of a channel needs its call to succeed. -/
theorem returns_truthful_iff (channelSizes : Channel → Int32) (pruData : Nat → UInt8)
    (length : Int32) (nonneg : 0 ≤ length) :
    (((∀ stored ∈ bufferStores channelSizes, stored.Fits) ∧ InitTruthful o channelSizes) ↔
      (TotalPasses channelSizes → ((∀ v ∈ formatted (List.ofFn channelSizes), -10 ^ 9 < v.toInt) ∧
        printedLength (List.ofFn channelSizes) + 1 ≤ 100) ∧
          ((∀ i, 0 ≤ channelSizes i) → o.opens 0 = true ∧ o.lost 1 = 0))) ∧
    (WriteTruthful o pruData length ↔ ∀ j < length.toNatClampNeg, o.lost j = 0) ∧
    (ReadTruthful o pruData length ↔ ∀ j < length.toNatClampNeg, (o.gives j).isSome) := by
  refine ⟨?_, writeTruthful_iff o pruData nonneg, readTruthful_iff o pruData nonneg⟩
  rw [bufferStores_fit_iff, initTruthful_iff]
  exact imp_and.symm

end truth

def succeeding : Outcomes := ⟨fun _ => true, fun _ => 0, fun _ => some 7⟩

def failing : Outcomes := ⟨fun _ => false, fun _ => 1, fun _ => none⟩

theorem returns_truthful_three :
    ((∀ stored ∈ bufferStores (fun _ => 2), stored.Fits) ∧
      InitTruthful succeeding (fun _ => 2)) ∧
    WriteTruthful succeeding (fun _ => 65) 3 ∧ ReadTruthful succeeding (fun _ => 0) 3 := by
  obtain ⟨init, -, read⟩ :=
    returns_truthful_iff succeeding (fun _ => 2) (fun _ => 0) 3 (by decide)
  obtain ⟨-, write, -⟩ := returns_truthful_iff succeeding (fun _ => 2) (fun _ => 65) 3 (by decide)
  have fits := (bufferStores_fit_iff fun _ => 2).mp (by decide)
  exact ⟨init.mpr fun total => ⟨fits total, fun _ => ⟨rfl, rfl⟩⟩, write.mpr fun _ _ => rfl,
    read.mpr fun _ _ => rfl⟩

/-- An init file that does not open, and channel files that take and give nothing: the returns
    are those of a success. -/
theorem failures_unreported :
    pruBridgeInit failing (fun _ => 2) = (0, [.fopen initFile false]) ∧
    pruWrite failing (fun _ => 65) 1 = (1, [.fwrite [65] 1]) ∧
    (pruRead failing (fun _ => 0) 1).1 = 1 ∧ (pruRead failing (fun _ => 0) 1).2.2 = [.fread none] ∧
    ¬ InitTruthful failing (fun _ => 2) ∧ ¬ WriteTruthful failing (fun _ => 65) 1 ∧
      ¬ ReadTruthful failing (fun _ => 0) 1 := by
  decide

end PruBridge.Library.Stdio
