import PruBridge.Library
import PruBridge.MachineWords

/-!
The two size texts, of the C library and of the Python library
(`PythonLib/Library/pru_bridge.py`), and the layout that the driver makes of them. The
Python `init` checks nothing and takes any number of sizes.
-/
namespace PruBridge
open AtomicProgram Driver Library

def Python.str (size : Int) : Text :=
  if size < 0 then 45 :: ascii (Nat.toDigits 10 size.natAbs)
  else ascii (Nat.toDigits 10 size.toNat)

/-- `for size in channel_sizes: char_size += str(size); char_size += ' '`, and what
    `f.write(char_size)` sends. -/
def Python.init (channelSizes : List Int) : Text :=
  channelSizes.foldl (fun charSize size => charSize ++ Python.str size ++ [32]) []

theorem str_toInt (value : Int32) : Python.str value.toInt = sprintfD value := by
  have sign : value.toInt < 0 ↔ value < 0 := by
    rw [Int32.lt_iff_toInt_lt, Int32.toInt_zero]
  unfold Python.str sprintfD
  by_cases negative : value < 0
  · rw [if_pos negative, if_pos (sign.mpr negative)]
  · rw [if_neg negative, if_neg fun less => negative (sign.mp less)]
    rfl

theorem pythonInit_from (channelSizes : List Int) (charSize : Text) :
    channelSizes.foldl (fun charSize size => charSize ++ Python.str size ++ [32]) charSize =
      charSize ++ channelSizes.flatMap fun size => Python.str size ++ [32] := by
  induction channelSizes generalizing charSize with
  | nil => exact (List.append_nil charSize).symm
  | cons size rest ih =>
    rw [List.foldl_cons, ih, List.flatMap_cons]
    simp only [List.append_assoc]

theorem pythonInit_eq (channelSizes : Channel → Int32) :
    Python.init (List.ofFn fun i => (channelSizes i).toInt) =
      (List.finRange 10).flatMap fun i => sprintfD (channelSizes i) ++ [32] := by
  unfold Python.init
  rw [pythonInit_from, List.ofFn_eq_map, List.flatMap_map, List.nil_append]
  simp only [str_toInt]

def Occupies (size : Channel → Nat) (m : Ram) (i : Channel) (k : Nat) : Prop :=
  (m.bufferStart i).toNat ≤ k ∧ k < (m.bufferStart i).toNat + size i

/-- What the driver should have after an init with these sizes. -/
structure SoundLayout (size : Channel → Nat) (m : Ram) : Prop where
  channelSize : ∀ i, (m.channelSize i).toNat = size i
  bufferStart : ∀ i, (m.bufferStart i).toNat = ∑ j ∈ Finset.Iio i, size j
  inside : ∀ i, (m.bufferStart i).toNat + size i ≤ totalBufferSize
  disjoint : ∀ i j, i ≠ j → ∀ k, Occupies size m i k → ¬ Occupies size m j k
  empty : ∀ i, m.head i = 0 ∧ m.tail i = 0 ∧ m.indexData i = 0
  initCheck : m.initCheck = 1

section layout
variable {size : Channel → Nat} (fits : ∑ i, size i ≤ totalBufferSize)
include fits

theorem laidOut_start (m : Ram) (i : Channel) :
    ((laidOut m fun j => UInt32.ofNat (size j)).bufferStart i).toNat = startOf size i := by
  have top := startOf_add_size_le size
  have small : ∀ j, startOf size j + size j < 2 ^ 32 := by
    intro j
    have := top j
    simp only [totalBufferSize] at fits
    omega
  have sizes : (fun j => (UInt32.ofNat (size j)).toNat) = size := by
    funext j
    exact UInt32.toNat_ofNat_of_lt' (by have := small j; change _ < 2 ^ 32; omega)
  simp only [laidOut, sizes]
  exact UInt32.toNat_ofNat_of_lt' (by have := small i; change _ < 2 ^ 32; omega)

theorem laidOut_sound (m : Ram) : SoundLayout size (laidOut m fun j => UInt32.ofNat (size j)) := by
  have start := laidOut_start fits m
  have top : ∀ i, startOf size i + size i ≤ totalBufferSize :=
    fun i => Nat.le_trans (startOf_add_size_le size i) fits
  constructor
  · intro i
    have := top i
    simp only [totalBufferSize] at this
    exact UInt32.toNat_ofNat_of_lt' (by change _ < 2 ^ 32; omega)
  · exact start
  · intro i
    rw [start]
    exact top i
  · intro i j other k here there
    simp only [Occupies, start] at here there
    rcases lt_or_gt_of_ne other with less | less
    · have order := startOf_add_size_le_start size less
      omega
    · have order := startOf_add_size_le_start size less
      omega
  · exact fun _ => ⟨rfl, rfl, rfl⟩
  · rfl

theorem initChannels_sound {text : Text} (printed : numbers text = (List.finRange 10).map size)
    (m : Ram) : ∃ m', (initChannels text).run m = .ok (strlen text + 1, m') ∧
      SoundLayout size m' := by
  have few : (numbers text).length ≤ 10 := by
    rw [printed, List.length_map, List.length_finRange]
  have sizes : sizesAfter text m.channelSize = fun i => UInt32.ofNat (size i) := by
    funext i
    exact sizesAfter_numbers printed m.channelSize i
  refine ⟨_, initChannels_run text m few, ?_⟩
  rw [sizes]
  exact laidOut_sound fits m

end layout

theorem sum_toInt {channelSizes : Channel → Int32} (nonneg : ∀ i, 0 ≤ channelSizes i) :
    ∑ i, (channelSizes i).toInt = ((∑ i, (channelSizes i).toNatClampNeg : Nat) : Int) := by
  rw [Nat.cast_sum]
  exact Finset.sum_congr rfl fun i _ => MachineWords.toInt_length (nonneg i)

/-- Ten sizes that fit: both libraries accept them, and the driver scans either text to the
    same sound layout, whatever was in the control block. -/
theorem size_texts_round_trip (channelSizes : Channel → Int32)
    (nonneg : ∀ i, 0 ≤ channelSizes i) (fits : ∑ i, (channelSizes i).toInt ≤ 11500) :
    ∃ text, pruBridgeInit channelSizes = some text ∧
      ∀ sent ∈ [text, Python.init (List.ofFn fun i => (channelSizes i).toInt)], ∀ m,
        ∃ m', (initChannels sent).run m = .ok (strlen sent + 1, m') ∧
          SoundLayout (fun i => (channelSizes i).toNatClampNeg) m' := by
  have natural := sum_toInt nonneg
  have total : sizeCheck channelSizes ≤ 11500 := by
    rw [Int32.le_iff_toInt_le, toInt_sizeCheck, Int.bmod_eq_of_le (by omega) (by omega)]
    exact fits
  obtain ⟨text, accepted⟩ := pruBridgeInit_accepts total nonneg
  have small : ∑ i, (channelSizes i).toNatClampNeg ≤ totalBufferSize := by
    simp only [totalBufferSize]
    omega
  refine ⟨text, accepted, ?_⟩
  intro sent which m
  have printed : numbers sent = (List.finRange 10).map fun i => (channelSizes i).toNatClampNeg := by
    rcases List.mem_pair.mp which with same | same
    · rw [same]
      exact numbers_pruBridgeInit accepted
    · have blank := numbers_sizes (fun i (_ : i ∈ List.finRange 10) => nonneg i) []
      rw [List.append_nil] at blank
      rw [same, pythonInit_eq, blank, numbers, numbersFrom, Option.toList_none, List.append_nil]
  exact initChannels_sound small printed m

def rising (i : Channel) : Int32 := Int32.ofNat (100 * i)

theorem size_texts_round_trip_rising : ∃ text, pruBridgeInit rising = some text ∧
    ∀ sent ∈ [text, Python.init (List.ofFn fun i => (rising i).toInt)], ∀ m,
      ∃ m', (initChannels sent).run m = .ok (strlen sent + 1, m') ∧
        SoundLayout (fun i => (rising i).toNatClampNeg) m' :=
  size_texts_round_trip rising (by decide) (by decide)

end PruBridge
