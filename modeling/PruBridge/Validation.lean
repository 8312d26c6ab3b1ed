import PruBridge.Stdio

/-!
What `pru_bridge_init` of the C library accepts. The total that it checks is an `int` and
has wrapped before any sign is looked at.
-/
namespace PruBridge.Library
open Driver

/-- What should be accepted: ten sizes whose exact sum fits the ring bytes. -/
def Valid (channelSizes : Channel → Int32) : Prop :=
  (∀ i, 0 ≤ channelSizes i) ∧ ∑ i, (channelSizes i).toInt ≤ totalBufferSize

instance (channelSizes : Channel → Int32) : Decidable (Valid channelSizes) :=
  inferInstanceAs (Decidable (_ ∧ _))

section outcomes
open Stdio
variable (o : Outcomes)

def Sends (channelSizes : Channel → Int32) : Prop :=
  ∃ text, Stdio.pruBridgeInit o channelSizes =
      (0, [.fopen initFile true, .fwrite text (o.lost 1)]) ∧
    numbers text = (List.finRange 10).map fun i => (channelSizes i).toNatClampNeg

def Refuses (channelSizes : Channel → Int32) : Prop :=
  (Stdio.pruBridgeInit o channelSizes).1 = 1 ∧
    written (Stdio.pruBridgeInit o channelSizes).2 = []

def ExactlyValidated (channelSizes : Channel → Int32) : Prop :=
  (Valid channelSizes → Sends o channelSizes) ∧ (¬ Valid channelSizes → Refuses o channelSizes)

theorem sends_of_accepted (opens : o.opens 0 = true) {channelSizes : Channel → Int32}
    (total : sizeCheck channelSizes ≤ 11500) (nonneg : ∀ i, 0 ≤ channelSizes i) :
    Sends o channelSizes := by
  obtain ⟨text, accepted⟩ := pruBridgeInit_accepts total nonneg
  refine ⟨text, ?_, numbers_pruBridgeInit accepted⟩
  simp [Stdio.pruBridgeInit, accepted, fopen, fwrite, opens]

theorem refuses_of_rejected {channelSizes : Channel → Int32}
    (rejected : ¬ (sizeCheck channelSizes ≤ 11500 ∧ ∀ i, 0 ≤ channelSizes i)) :
    Refuses o channelSizes := by
  have none : pruBridgeInit channelSizes = none :=
    (pruBridgeInit_eq channelSizes).trans (if_neg rejected)
  unfold Refuses Stdio.pruBridgeInit
  rw [none]
  exact ⟨rfl, rfl⟩

theorem not_refuses_of_sends {channelSizes : Channel → Int32} (sends : Sends o channelSizes) :
    ¬ Refuses o channelSizes := by
  obtain ⟨text, call, -⟩ := sends
  intro refuses
  rcases refuses with ⟨one, -⟩
  rw [call] at one
  cases one

theorem exactlyValidated_iff (opens : o.opens 0 = true) (channelSizes : Channel → Int32) :
    ExactlyValidated o channelSizes ↔
      (Valid channelSizes ↔ TotalPasses channelSizes ∧ ∀ i, 0 ≤ channelSizes i) := by
  rw [← sizeCheck_le_iff]
  by_cases accepted : sizeCheck channelSizes ≤ 11500 ∧ ∀ i, 0 ≤ channelSizes i
  · have sends := sends_of_accepted o opens accepted.1 accepted.2
    constructor
    · intro exactly
      have valid : Valid channelSizes := by
        by_contra invalid
        exact not_refuses_of_sends o sends (exactly.2 invalid)
      exact iff_of_true valid accepted
    · intro agrees
      exact ⟨fun _ => sends, fun invalid => absurd (agrees.mpr accepted) invalid⟩
  · have refuses := refuses_of_rejected o accepted
    constructor
    · intro exactly
      have invalid : ¬ Valid channelSizes := fun valid =>
        not_refuses_of_sends o (exactly.1 valid) refuses
      exact iff_of_false invalid accepted
    · intro agrees
      exact ⟨fun valid => absurd (agrees.mp valid) accepted, fun _ => refuses⟩

theorem checks_agree_iff (channelSizes : Channel → Int32) :
    (Valid channelSizes ↔ TotalPasses channelSizes ∧ ∀ i, 0 ≤ channelSizes i) ↔
      (∃ i, channelSizes i < 0) ∨ ∑ i, (channelSizes i).toInt ≤ totalBufferSize ∨
        totalBufferSize < (∑ i, (channelSizes i).toInt) % 2 ^ 32 ∧
          (∑ i, (channelSizes i).toInt) % 2 ^ 32 < 2 ^ 31 := by
  have limit : (totalBufferSize : Int) = 11500 := rfl
  rw [Valid, TotalPasses, limit]
  by_cases nonneg : ∀ i, 0 ≤ channelSizes i
  · have natural : ¬ ∃ i, channelSizes i < 0 := by
      intro some
      rcases some with ⟨i, negative⟩
      exact Int32.not_lt.mpr (nonneg i) negative
    have total : 0 ≤ ∑ i, (channelSizes i).toInt :=
      Finset.sum_nonneg fun i _ => by simpa [Int32.le_iff_toInt_le] using nonneg i
    rw [and_iff_left nonneg, and_iff_right nonneg, or_iff_right natural]
    omega
  · have negative : ∃ i, channelSizes i < 0 := by
      obtain ⟨i, less⟩ := not_forall.mp nonneg
      exact ⟨i, Int32.not_le.mp less⟩
    constructor
    · intro _
      exact Or.inl negative
    · intro _
      exact iff_of_false (fun valid => nonneg valid.1) fun accepted => nonneg accepted.2

/-- The library keeps to its two arrays and accepts exactly what it should: when the text of an
    array whose total passes fits, and when a size is negative, the exact total fits, or a total
    that does not fit stays above the limit after wrapping. -/
theorem exact_validation_iff (opens : o.opens 0 = true) (channelSizes : Channel → Int32) :
    (∀ stored ∈ bufferStores channelSizes, stored.Fits) ∧ ExactlyValidated o channelSizes ↔
      (TotalPasses channelSizes → (∀ v ∈ formatted (List.ofFn channelSizes), -10 ^ 9 < v.toInt) ∧
        printedLength (List.ofFn channelSizes) + 1 ≤ 100) ∧
      ((∃ i, channelSizes i < 0) ∨ ∑ i, (channelSizes i).toInt ≤ totalBufferSize ∨
        totalBufferSize < (∑ i, (channelSizes i).toInt) % 2 ^ 32 ∧
          (∑ i, (channelSizes i).toInt) % 2 ^ 32 < 2 ^ 31) := by
  rw [bufferStores_fit_iff, exactlyValidated_iff o opens, checks_agree_iff]

end outcomes

theorem exact_validation_pairs :
    (∀ stored ∈ bufferStores (fun _ => 2), stored.Fits) ∧
      ExactlyValidated Stdio.succeeding (fun _ => 2) := by
  have fits := (bufferStores_fit_iff fun _ => 2).mp (by decide)
  exact (exact_validation_iff Stdio.succeeding rfl fun _ => 2).mpr
    ⟨fits, Or.inr (Or.inl (by decide))⟩

/-- Two sizes whose total is `2 ^ 31` wraps to a negative number. -/
def wrapping (i : Channel) : Int32 := if i = 0 then 2147483647 else if i = 1 then 1 else 0

theorem wrapping_accepted : ¬ Valid wrapping ∧
    (∀ stored ∈ bufferStores wrapping, stored.Fits) ∧
    (Stdio.pruBridgeInit Stdio.succeeding wrapping).1 = 0 ∧
    numbers (Stdio.written (Stdio.pruBridgeInit Stdio.succeeding wrapping).2) =
      [2147483647, 1, 0, 0, 0, 0, 0, 0, 0, 0] ∧
    ¬ ExactlyValidated Stdio.succeeding wrapping := by
  have invalid : ¬ Valid wrapping := by decide
  refine ⟨invalid, by decide, by decide, by decide, ?_⟩
  intro exactly
  rcases exactly with ⟨-, refuses⟩
  exact absurd (refuses invalid).1 (by decide)

end PruBridge.Library
