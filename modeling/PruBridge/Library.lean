import PruBridge.Initialisation
import Mathlib.Tactic.Basic

/-!
`pru_bridge_init` of the C library (`C_Lib/Library/libpru_bridge.c`): what it checks, and
the text it writes to the `init` file. Sums of sizes are `int` and wrap.
-/
namespace PruBridge.Library
open Driver

def ascii (chars : List Char) : Text := chars.map fun ch => UInt8.ofNat ch.toNat

def sprintfD (value : Int32) : Text :=
  if value < 0 then 45 :: ascii (Nat.toDigits 10 value.toInt.natAbs)
  else ascii (Nat.toDigits 10 value.toNatClampNeg)

def sizeCheck (channelSizes : Channel → Int32) : Int32 :=
  (List.finRange 10).foldl (fun sum i => sum + channelSizes i) 0

/-- The loop that appends the sizes to `input`. A negative size is appended and then refused. -/
def appendSizes (channelSizes : Channel → Int32) : List Channel → (input : Text) → Option Text
  | [], input => some input
  | i :: rest, input =>
    let input := input ++ sprintfD (channelSizes i) ++ [32]
    if channelSizes i < 0 then none else appendSizes channelSizes rest input

/-- The text written when the array is accepted (the function returns 0). `char_sizes` and `input`
    have no end here: `TextBuffers` says which arrays of sizes keep to theirs. -/
def pruBridgeInit (channelSizes : Channel → Int32) : Option Text :=
  if sizeCheck channelSizes > 11500 then none
  else (appendSizes channelSizes (List.finRange 10) []).map fun input => input ++ [10]

theorem digit_ascii {ch : Char} (digits : ch.isDigit) :
    isDigit (UInt8.ofNat ch.toNat) ∧ digit (UInt8.ofNat ch.toNat) = ch.toNat - 48 := by
  have bounds : 48 ≤ ch.toNat ∧ ch.toNat ≤ 57 := by
    simpa [Char.isDigit, UInt32.le_iff_toNat_le] using digits
  have value : (UInt8.ofNat ch.toNat).toNat = ch.toNat :=
    UInt8.toNat_ofNat_of_lt' (by change ch.toNat < 256; omega)
  constructor
  · simp only [isDigit, Bool.and_eq_true, decide_eq_true_eq, UInt8.le_iff_toNat_le, value]
    exact bounds
  · rw [digit, value]

theorem decimal_ascii {chars : List Char} (digits : ∀ ch ∈ chars, ch.isDigit) (v : Nat) :
    decimal v (ascii chars) = Nat.ofDigitChars 10 chars v := by
  induction chars generalizing v with
  | nil => rfl
  | cons ch rest ih =>
    have here := (digit_ascii (digits ch (by simp))).2
    rw [Nat.ofDigitChars_cons, ← ih (fun c mem => digits c (by simp [mem]))]
    simp only [ascii, decimal, List.map_cons, List.foldl_cons, here]
    rfl

theorem numbers_printed (n : Nat) {next : UInt8} (apart : isDigit next = false) (rest : Text) :
    numbers (ascii (Nat.toDigits 10 n) ++ next :: rest) = n :: numbers (next :: rest) := by
  have chars : ∀ ch ∈ Nat.toDigits 10 n, ch.isDigit := fun ch mem =>
    Nat.isDigit_of_mem_toDigits (by decide) (by decide) mem
  have digits : ∀ b ∈ ascii (Nat.toDigits 10 n), isDigit b := by
    intro b mem
    obtain ⟨ch, here, rfl⟩ := List.mem_map.mp mem
    exact (digit_ascii (chars ch here)).1
  have value : decimal 0 (ascii (Nat.toDigits 10 n)) = n := by
    rw [decimal_ascii chars, Nat.ofDigitChars_ten_toDigits]
  cases text : ascii (Nat.toDigits 10 n) with
  | nil => exact absurd (List.map_eq_nil_iff.mp text) Nat.toDigits_ne_nil
  | cons first others =>
    rw [text] at digits value
    have stop : ((first :: others) ++ next :: rest).takeWhile isDigit = first :: others := by
      rw [List.takeWhile_append_of_pos digits, List.takeWhile_cons_of_neg (by simp [apart]),
        List.append_nil]
    have skip : ((first :: others) ++ next :: rest).dropWhile isDigit = next :: rest := by
      rw [List.dropWhile_append_of_pos digits, List.dropWhile_cons_of_neg (by simp [apart])]
    have here := numbers_digit (digits first (by simp)) (others ++ next :: rest)
    rw [List.cons_append] at stop skip ⊢
    rw [here, stop, skip, value]

theorem numbers_blank (rest : Text) : numbers (32 :: rest) = numbers rest := by
  rfl

theorem appendSizes_eq {channelSizes : Channel → Int32} {is : List Channel} {input text : Text}
    (accepted : appendSizes channelSizes is input = some text) :
    (∀ i ∈ is, 0 ≤ channelSizes i) ∧
      text = input ++ is.flatMap fun i => sprintfD (channelSizes i) ++ [32] := by
  induction is generalizing input with
  | nil =>
    cases accepted
    exact ⟨by simp, by simp⟩
  | cons i rest ih =>
    simp only [appendSizes] at accepted
    split at accepted
    · cases accepted
    · rename_i nonneg
      obtain ⟨others, text⟩ := ih accepted
      refine ⟨fun j mem => ?_, by rw [text]; simp⟩
      rcases List.mem_cons.mp mem with rfl | later
      · exact Int32.not_lt.mp nonneg
      · exact others j later

theorem numbers_sizes {channelSizes : Channel → Int32} {is : List Channel}
    (nonneg : ∀ i ∈ is, 0 ≤ channelSizes i) (rest : Text) :
    numbers ((is.flatMap fun i => sprintfD (channelSizes i) ++ [32]) ++ rest) =
      is.map (fun i => (channelSizes i).toNatClampNeg) ++ numbers rest := by
  induction is with
  | nil => rfl
  | cons i is ih =>
    have natural : ¬ channelSizes i < 0 := Int32.not_lt.mpr (nonneg i (by simp))
    have later := ih fun j mem => nonneg j (by simp [mem])
    simp only [List.flatMap_cons, sprintfD, natural, ↓reduceIte, List.append_assoc,
      List.cons_append, List.nil_append, List.map_cons] at later ⊢
    rw [numbers_printed _ rfl, numbers_blank, later]

theorem appendSizes_nonneg {channelSizes : Channel → Int32} {is : List Channel}
    (nonneg : ∀ i ∈ is, 0 ≤ channelSizes i) (input : Text) :
    appendSizes channelSizes is input =
      some (input ++ is.flatMap fun i => sprintfD (channelSizes i) ++ [32]) := by
  induction is generalizing input with
  | nil => simp [appendSizes]
  | cons i rest ih =>
    have natural : ¬ channelSizes i < 0 := Int32.not_lt.mpr (nonneg i (by simp))
    have later := ih (fun j mem => nonneg j (by simp [mem]))
    simp [appendSizes, natural, later]

theorem sizeCheck_from (channelSizes : Channel → Int32) (is : List Channel) (sum : Int32) :
    (is.foldl (fun sum i => sum + channelSizes i) sum).toInt =
      (sum.toInt + (is.map fun i => (channelSizes i).toInt).sum).bmod (2 ^ 32) := by
  induction is generalizing sum with
  | nil => simp
  | cons i rest ih =>
    rw [List.foldl_cons, ih, Int32.toInt_add, Int.bmod_add_bmod, List.map_cons, List.sum_cons,
      Int.add_assoc]

theorem toInt_sizeCheck (channelSizes : Channel → Int32) :
    (sizeCheck channelSizes).toInt = (∑ i, (channelSizes i).toInt).bmod (2 ^ 32) := by
  have total := sizeCheck_from channelSizes (List.finRange 10) 0
  rw [Int32.toInt_zero, Int.zero_add] at total
  rw [Fin.sum_univ_def]
  exact total

/-- The exact total, modulo `2 ^ 32`, is small or so large that it reads as negative. -/
def TotalPasses (channelSizes : Channel → Int32) : Prop :=
  (∑ i, (channelSizes i).toInt) % 2 ^ 32 ≤ totalBufferSize ∨
    2 ^ 31 ≤ (∑ i, (channelSizes i).toInt) % 2 ^ 32

instance (channelSizes : Channel → Int32) : Decidable (TotalPasses channelSizes) :=
  inferInstanceAs (Decidable (_ ∨ _))

theorem sizeCheck_le_iff (channelSizes : Channel → Int32) :
    sizeCheck channelSizes ≤ 11500 ↔ TotalPasses channelSizes := by
  have limit : (11500 : Int32).toInt = 11500 := rfl
  unfold TotalPasses
  rw [Int32.le_iff_toInt_le, toInt_sizeCheck, Int.bmod_def, limit]
  simp only [totalBufferSize]
  push_cast
  split <;> omega

theorem pruBridgeInit_eq (channelSizes : Channel → Int32) :
    pruBridgeInit channelSizes =
      if sizeCheck channelSizes ≤ 11500 ∧ ∀ i, 0 ≤ channelSizes i then
        some (((List.finRange 10).flatMap fun i => sprintfD (channelSizes i) ++ [32]) ++ [10])
      else none := by
  unfold pruBridgeInit
  by_cases total : sizeCheck channelSizes > 11500
  · have wrong : ¬ (sizeCheck channelSizes ≤ 11500 ∧ ∀ i, 0 ≤ channelSizes i) :=
      fun right => Int32.not_le.mpr total right.1
    rw [if_pos total, if_neg wrong]
  · rw [if_neg total]
    by_cases nonneg : ∀ i, 0 ≤ channelSizes i
    · rw [if_pos ⟨Int32.not_lt.mp total, nonneg⟩, appendSizes_nonneg fun i _ => nonneg i,
        List.nil_append, Option.map_some]
    · rw [if_neg fun right => nonneg right.2, Option.map_eq_none_iff]
      cases appended : appendSizes channelSizes (List.finRange 10) [] with
      | none => rfl
      | some text =>
        exact absurd (fun i => (appendSizes_eq appended).1 i (List.mem_finRange i)) nonneg

theorem pruBridgeInit_accepts {channelSizes : Channel → Int32}
    (total : sizeCheck channelSizes ≤ 11500) (nonneg : ∀ i, 0 ≤ channelSizes i) :
    ∃ text, pruBridgeInit channelSizes = some text :=
  ⟨_, (pruBridgeInit_eq channelSizes).trans (if_pos ⟨total, nonneg⟩)⟩

theorem numbers_pruBridgeInit {channelSizes : Channel → Int32} {text : Text}
    (accepted : pruBridgeInit channelSizes = some text) :
    numbers text = (List.finRange 10).map fun i => (channelSizes i).toNatClampNeg := by
  unfold pruBridgeInit at accepted
  split at accepted
  · cases accepted
  · obtain ⟨input, appended, rfl⟩ := Option.map_eq_some_iff.mp accepted
    obtain ⟨nonneg, rfl⟩ := appendSizes_eq appended
    rw [List.nil_append, numbers_sizes nonneg]
    exact List.append_nil _

theorem sizesAfter_numbers {text : Text} {sizes : Channel → Nat}
    (printed : numbers text = (List.finRange 10).map sizes) (old : Channel → UInt32)
    (c : Channel) : sizesAfter text old c = UInt32.ofNat (sizes c) := by
  rw [sizesAfter, printed, sizesFrom, if_pos (Nat.zero_le _)]
  simp

theorem sizesAfter_pruBridgeInit {channelSizes : Channel → Int32} {text : Text}
    (accepted : pruBridgeInit channelSizes = some text) (old : Channel → UInt32) (c : Channel) :
    sizesAfter text old c = UInt32.ofNat (channelSizes c).toNatClampNeg := by
  rw [sizesAfter_numbers (numbers_pruBridgeInit accepted)]

end PruBridge.Library
