import Mathlib.Data.UInt
import Mathlib.Tactic.Basic

/-!
`uint32_t` and `int` arithmetic read as arithmetic on naturals, where it does not wrap.
-/
namespace MachineWords

theorem toNat_add_one {a b : UInt32} (lt : a < b) : (a + 1).toNat = a.toNat + 1 := by
  have bound := b.toNat_lt
  have less := UInt32.lt_iff_toNat_lt.mp lt
  rw [UInt32.toNat_add, UInt32.toNat_one]
  omega

theorem toNat_pos {a : UInt32} (pos : a ≠ 0) : 0 < a.toNat := by
  by_contra none
  exact pos (UInt32.toNat_inj.mp (by simpa using none))

theorem toNat_pos_of_lt {a n : UInt32} (lt : a < n) : 0 < n.toNat :=
  Nat.lt_of_le_of_lt (Nat.zero_le _) (UInt32.lt_iff_toNat_lt.mp lt)

theorem ne_zero_of_lt {a n : UInt32} (lt : a < n) : n ≠ 0 := by
  rintro rfl
  exact absurd (toNat_pos_of_lt lt) (Nat.lt_irrefl 0)

theorem toNat_sub_one {a : UInt32} (pos : a ≠ 0) : (a - 1).toNat = a.toNat - 1 := by
  have bound := a.toNat_lt
  have := toNat_pos pos
  rw [UInt32.toNat_sub, UInt32.toNat_one]
  omega

theorem toNat_next {a n : UInt32} (lt : a < n) :
    ((a + 1) % n).toNat = (a.toNat + 1) % n.toNat := by
  rw [UInt32.toNat_mod, toNat_add_one lt]

theorem next_lt {a n : UInt32} (lt : a < n) : (a + 1) % n < n := by
  rw [UInt32.lt_iff_toNat_lt, UInt32.toNat_mod]
  exact Nat.mod_lt _ (toNat_pos_of_lt lt)

theorem add_ofNat_injective {start : UInt32} {j k : Nat} (hj : j < 2 ^ 32) (hk : k < 2 ^ 32)
    (same : start + UInt32.ofNat j = start + UInt32.ofNat k) : j = k := by
  have offsets := (UInt32.add_right_inj start).mp same
  have values := congrArg UInt32.toNat offsets
  rwa [UInt32.toNat_ofNat_of_lt' hj, UInt32.toNat_ofNat_of_lt' hk] at values

section signed
variable (index : UInt32) (length : Int32)

theorem toInt_range : -2 ^ 31 ≤ length.toInt ∧ length.toInt < 2 ^ 31 :=
  ⟨Int32.le_toInt length, Int32.toInt_lt length⟩

theorem toNat_toUInt32 : (length.toUInt32.toNat : Int) = length.toInt % 2 ^ 32 := by
  have signed : length.toInt = length.toUInt32.toBitVec.toInt := rfl
  have word : length.toUInt32.toNat = length.toUInt32.toBitVec.toNat := rfl
  rw [BitVec.toInt_eq_toNat_cond] at signed
  rw [word]
  split at signed <;> omega

theorem toNat_add_signed :
    ((index + length.toUInt32).toNat : Int) = (index.toNat + length.toInt) % 2 ^ 32 := by
  have word := toNat_toUInt32 length
  rw [UInt32.toNat_add]
  omega

theorem toNat_sub_signed :
    ((index - length.toUInt32).toNat : Int) = (index.toNat - length.toInt) % 2 ^ 32 := by
  have word := toNat_toUInt32 length
  rw [UInt32.toNat_sub]
  omega

/-- The guard `((int)index - length) >= 0` for every counter and every length. -/
theorem signed_guard_iff : index.toInt32 - length ≥ 0 ↔
    (0 ≤ index.toNat - length.toInt ∧ index.toNat - length.toInt < 2 ^ 31) ∨
      2 ^ 32 ≤ index.toNat - length.toInt := by
  obtain ⟨low, high⟩ := toInt_range length
  have bound := index.toNat_lt
  have signed : index.toInt32.toInt = (index.toNat : Int).bmod (2 ^ 32) := by
    change index.toBitVec.toInt = _
    exact BitVec.toInt_eq_toNat_bmod _
  rw [ge_iff_le, Int32.le_iff_toInt_le, Int32.toInt_sub, signed, Int32.toInt_zero,
    Int.bmod_sub_bmod]
  rw [Int.bmod_def]
  split <;> omega

end signed

/-- A `uint32_t` assigned to an `int`: no more rounds than its value, and as many if it fits. -/
theorem toNatClampNeg_le (index : UInt32) : index.toInt32.toNatClampNeg ≤ index.toNat := by
  have signed : index.toInt32.toInt = index.toBitVec.toInt := rfl
  have word : index.toNat = index.toBitVec.toNat := rfl
  rw [BitVec.toInt_eq_toNat_cond] at signed
  change index.toInt32.toInt.toNat ≤ _
  split at signed <;> omega

theorem toInt_small {index : UInt32} (small : index.toNat < 2 ^ 31) :
    index.toInt32.toInt = index.toNat := by
  change index.toBitVec.toInt = _
  rw [BitVec.toInt_eq_toNat_of_lt (by change 2 * index.toNat < _; omega)]
  rfl

theorem toNat_small_int {index : UInt32} (small : index.toNat < 2 ^ 31) :
    index.toInt32.toNatClampNeg = index.toNat := by
  change index.toInt32.toInt.toNat = _
  rw [toInt_small small]
  rfl

section lengths
variable {length : Int32} (nonneg : 0 ≤ length)
include nonneg

theorem toInt_length : length.toInt = length.toNatClampNeg := by
  have : 0 ≤ length.toInt := by simpa [Int32.le_iff_toInt_le] using nonneg
  exact (Int.toNat_of_nonneg this).symm

theorem toNat_length : length.toUInt32.toNat = length.toNatClampNeg := by
  have value := toInt_length nonneg
  have signed : length.toInt = length.toUInt32.toBitVec.toInt := rfl
  rw [BitVec.toInt_eq_toNat_cond] at signed
  change length.toUInt32.toBitVec.toNat = _
  split at signed <;> omega

variable {index : UInt32} (small : index.toNat < 2 ^ 31)
include small

theorem toNat_add_length :
    (index + length.toUInt32).toNat = index.toNat + length.toNatClampNeg := by
  have bound := length.toNatClampNeg_lt
  rw [UInt32.toNat_add, toNat_length nonneg]
  omega

theorem guard_iff : index.toInt32 - length ≥ 0 ↔ length.toNatClampNeg ≤ index.toNat := by
  have value := toInt_length nonneg
  rw [signed_guard_iff]
  omega

end lengths

theorem toNat_sub_length {length : Int32} (nonneg : 0 ≤ length) {index : UInt32}
    (le : length.toNatClampNeg ≤ index.toNat) :
    (index - length.toUInt32).toNat = index.toNat - length.toNatClampNeg := by
  have value := toNat_length nonneg
  rw [UInt32.toNat_sub_of_le _ _ (UInt32.le_iff_toNat_le.mpr (by omega)), value]

end MachineWords
