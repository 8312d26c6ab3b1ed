import PruBridge.Library
import PruBridge.MachineWords
import Mathlib.Data.Nat.Log

/-!
The two arrays on the stack of the C library's `pru_bridge_init`, `char_sizes[11]` and
`input[100]`: every string that is stored in them, on the refusing paths too.
-/
namespace PruBridge.Library
open Driver

inductive BufferStore where
  | charSizes (text : Text)
  | input (text : Text)

def BufferStore.Fits : BufferStore → Prop
  | .charSizes text => text.length + 1 ≤ 11
  | .input text => text.length + 1 ≤ 100

@[simp] theorem fits_charSizes (text : Text) :
    (BufferStore.charSizes text).Fits ↔ text.length + 1 ≤ 11 := Iff.rfl

@[simp] theorem fits_input (text : Text) :
    (BufferStore.input text).Fits ↔ text.length + 1 ≤ 100 := Iff.rfl

instance (stored : BufferStore) : Decidable stored.Fits := by
  cases stored <;> simp only [BufferStore.Fits] <;> infer_instance

/-- The stores of the loop of `appendSizes`, and of the `strcat` of the newline after it. -/
def appendStores (channelSizes : Channel → Int32) : List Channel → (input : Text) → List BufferStore
  | [], input => [.input (input ++ [10])]
  | i :: rest, input =>
    .charSizes (sprintfD (channelSizes i)) ::
      .input (input ++ sprintfD (channelSizes i)) ::
      .input (input ++ sprintfD (channelSizes i) ++ [32]) ::
      if channelSizes i < 0 then []
      else appendStores channelSizes rest (input ++ sprintfD (channelSizes i) ++ [32])

/-- `strcpy(input,"")`, then the loop if the total passes. -/
def bufferStores (channelSizes : Channel → Int32) : List BufferStore :=
  .input [] :: if sizeCheck channelSizes > 11500 then []
    else appendStores channelSizes (List.finRange 10) []

def width (value : Int32) : Nat :=
  Nat.log 10 value.toInt.natAbs + 1 + if value < 0 then 1 else 0

theorem length_toDigits (n : Nat) : (Nat.toDigits 10 n).length = Nat.log 10 n + 1 := by
  have bound : ∀ k, 0 < k → ((Nat.toDigits 10 n).length ≤ k ↔ Nat.log 10 n < k) := by
    intro k pos
    rw [Nat.length_toDigits_le_iff (by decide) pos]
    exact ⟨Nat.log_lt_of_lt_pow' (by omega), Nat.lt_pow_of_log_lt (by decide)⟩
  have least := bound (Nat.log 10 n + 1) (by omega)
  have length := bound (Nat.toDigits 10 n).length Nat.length_toDigits_pos
  omega

theorem length_sprintfD (value : Int32) : (sprintfD value).length = width value := by
  unfold sprintfD width
  by_cases negative : value < 0
  · rw [if_pos negative, if_pos negative, List.length_cons, ascii, List.length_map,
      length_toDigits]
  · have natural : value.toInt.natAbs = value.toNatClampNeg := by
      have value := MachineWords.toInt_length (Int32.not_lt.mp negative)
      omega
    rw [if_neg negative, if_neg negative, ascii, List.length_map, length_toDigits, natural]

/-- The sizes that are printed: up to and with the first negative one. -/
def formatted (sizes : List Int32) : List Int32 :=
  sizes.takeWhile (0 ≤ ·) ++ (sizes.dropWhile (0 ≤ ·)).take 1

/-- What ends up in `input`: a numeral and a blank for each printed size, and the newline if no
    size is refused. -/
def printedLength (sizes : List Int32) : Nat :=
  ((formatted sizes).map fun v => width v + 1).sum + if sizes.all (0 ≤ ·) then 1 else 0

theorem formatted_nonneg {v : Int32} (nonneg : 0 ≤ v) (rest : List Int32) :
    formatted (v :: rest) = v :: formatted rest := by
  simp [formatted, nonneg]

theorem formatted_negative {v : Int32} (negative : v < 0) (rest : List Int32) :
    formatted (v :: rest) = [v] := by
  have refused : ¬ 0 ≤ v := Int32.not_le.mpr negative
  simp [formatted, refused]

theorem printedLength_nonneg {v : Int32} (nonneg : 0 ≤ v) (rest : List Int32) :
    printedLength (v :: rest) = width v + 1 + printedLength rest := by
  unfold printedLength
  rw [formatted_nonneg nonneg, List.map_cons, List.sum_cons]
  simp only [List.all_cons, nonneg, decide_true, Bool.true_and]
  exact Nat.add_assoc _ _ _

theorem printedLength_negative {v : Int32} (negative : v < 0) (rest : List Int32) :
    printedLength (v :: rest) = width v + 1 := by
  have refused : ¬ 0 ≤ v := Int32.not_le.mpr negative
  unfold printedLength
  rw [formatted_negative negative]
  simp [refused]

theorem appendStores_fit_iff (channelSizes : Channel → Int32) (is : List Channel) (input : Text) :
    (∀ stored ∈ appendStores channelSizes is input, stored.Fits) ↔
      (∀ v ∈ formatted (is.map channelSizes), width v ≤ 10) ∧
        input.length + printedLength (is.map channelSizes) + 1 ≤ 100 := by
  induction is generalizing input with
  | nil => simp [appendStores, formatted, printedLength, BufferStore.Fits]
  | cons i rest ih =>
    have numeral := length_sprintfD (channelSizes i)
    have later := ih (input ++ sprintfD (channelSizes i) ++ [32])
    simp only [List.length_append, List.length_singleton, numeral] at later
    rw [List.map_cons, appendStores]
    by_cases negative : channelSizes i < 0
    · rw [if_pos negative, formatted_negative negative, printedLength_negative negative]
      simp only [List.forall_mem_cons, fits_charSizes, fits_input, List.length_append,
        List.length_singleton, numeral, List.not_mem_nil, false_implies, implies_true, and_true]
      omega
    · have natural : 0 ≤ channelSizes i := Int32.not_lt.mp negative
      rw [if_neg negative, formatted_nonneg natural, printedLength_nonneg natural]
      simp only [List.forall_mem_cons, later, fits_charSizes, fits_input, List.length_append,
        List.length_singleton, numeral]
      constructor
      · intro fitting
        rcases fitting with ⟨narrow, -, -, others, short⟩
        exact ⟨⟨by omega, others⟩, by omega⟩
      · rintro ⟨⟨narrow, others⟩, short⟩
        exact ⟨by omega, by omega, by omega, others, by omega⟩

theorem width_le_ten_iff (value : Int32) : width value ≤ 10 ↔ -10 ^ 9 < value.toInt := by
  have low := value.le_toInt
  have high := value.toInt_lt
  have sign : value < 0 ↔ value.toInt < 0 := by rw [Int32.lt_iff_toInt_lt, Int32.toInt_zero]
  unfold width
  by_cases negative : value < 0
  · have digits : Nat.log 10 value.toInt.natAbs < 9 ↔ value.toInt.natAbs < 10 ^ 9 :=
      ⟨Nat.lt_pow_of_log_lt (by decide), Nat.log_lt_of_lt_pow' (by decide)⟩
    have below := sign.mp negative
    have magnitude : value.toInt.natAbs < 10 ^ 9 ↔ -10 ^ 9 < value.toInt := by omega
    rw [if_pos negative, ← magnitude, ← digits]
    omega
  · have digits : Nat.log 10 value.toInt.natAbs < 10 :=
      Nat.log_lt_of_lt_pow' (by decide) (by omega)
    have above : ¬ value.toInt < 0 := fun less => negative (sign.mpr less)
    rw [if_neg negative]
    omega

theorem bufferStores_fit_iff (channelSizes : Channel → Int32) :
    (∀ stored ∈ bufferStores channelSizes, stored.Fits) ↔
      (TotalPasses channelSizes → (∀ v ∈ formatted (List.ofFn channelSizes), -10 ^ 9 < v.toInt) ∧
        printedLength (List.ofFn channelSizes) + 1 ≤ 100) := by
  rw [← sizeCheck_le_iff]
  unfold bufferStores
  by_cases total : sizeCheck channelSizes > 11500
  · rw [if_pos total]
    constructor
    · intro _ passes
      exact absurd passes (Int32.not_le.mpr total)
    · intro _
      simp
  · have loop := appendStores_fit_iff channelSizes (List.finRange 10) []
    simp only [width_le_ten_iff, List.length_nil, Nat.zero_add, ← List.ofFn_eq_map] at loop
    rw [if_neg total, List.forall_mem_cons, loop, fits_input]
    constructor
    · intro fitting _
      exact fitting.2
    · intro fits
      exact ⟨by decide, fits (Int32.not_lt.mp total)⟩

/-- Every string fits its array exactly when the total is refused at once, or when the first
    negative size, if there is one, has nine digits at most and all that is printed leaves room
    for the terminator. -/
theorem text_fits_iff (channelSizes : Channel → Int32) :
    (∀ stored ∈ bufferStores channelSizes, stored.Fits) ↔
      ¬ TotalPasses channelSizes ∨
        (∀ v ∈ formatted (List.ofFn channelSizes), -10 ^ 9 < v.toInt) ∧
          printedLength (List.ofFn channelSizes) + 1 ≤ 100 := by
  rw [bufferStores_fit_iff, imp_iff_not_or]

/-- The refused array `-2147483648 0 0 ...` puts twelve bytes into the eleven of `char_sizes`. -/
def lowest (i : Channel) : Int32 := if i = 0 then -2147483648 else 0

theorem lowest_overruns :
    BufferStore.charSizes [45, 50, 49, 52, 55, 52, 56, 51, 54, 52, 56] ∈ bufferStores lowest ∧
      ¬ ∀ stored ∈ bufferStores lowest, stored.Fits := by
  have stored : BufferStore.charSizes [45, 50, 49, 52, 55, 52, 56, 51, 54, 52, 56] ∈
      bufferStores lowest := List.mem_cons_of_mem _ List.mem_cons_self
  refine ⟨stored, ?_⟩
  intro fits
  exact absurd (fits _ stored) (by decide)

end PruBridge.Library
