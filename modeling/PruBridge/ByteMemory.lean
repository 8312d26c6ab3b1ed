import Mathlib.Algebra.GroupWithZero.Nat
import Mathlib.Logic.Function.Basic

/-!
Words of 32 bits in a memory of bytes, least significant byte first.
-/
namespace ByteMemory

abbrev Bytes := Nat → UInt8

def byteOf (v : UInt32) (k : Nat) : UInt8 := UInt8.ofNat (v.toNat / 256 ^ k)

def word (b : Bytes) (a : Nat) : UInt32 :=
  UInt32.ofNat ((b a).toNat + 256 * (b (a + 1)).toNat + 65536 * (b (a + 2)).toNat +
    16777216 * (b (a + 3)).toNat)

def putWord (b : Bytes) (a : Nat) (v : UInt32) : Bytes := fun x =>
  if a ≤ x ∧ x < a + 4 then byteOf v (x - a) else b x

section words
variable {b b' : Bytes} {a d x : Nat} {v : UInt32}

theorem putWord_inside {k : Nat} (few : k < 4) : putWord b a v (a + k) = byteOf v k := by
  have inside : a ≤ a + k ∧ a + k < a + 4 := by omega
  rw [putWord, if_pos inside, Nat.add_sub_cancel_left]

theorem putWord_outside (outside : x < a ∨ a + 4 ≤ x) : putWord b a v x = b x := by
  have not : ¬ (a ≤ x ∧ x < a + 4) := by omega
  rw [putWord, if_neg not]

theorem word_parts (v : UInt32) :
    UInt32.ofNat ((byteOf v 0).toNat + 256 * (byteOf v 1).toNat + 65536 * (byteOf v 2).toNat +
      16777216 * (byteOf v 3).toNat) = v := by
  have top := v.toNat_lt
  apply UInt32.toNat_inj.mp
  simp only [byteOf, UInt8.toNat_ofNat', UInt32.toNat_ofNat', Nat.reducePow, Nat.div_one]
  omega

theorem word_of_bytes (same : ∀ k, k < 4 → b (a + k) = byteOf v k) : word b a = v := by
  have first := same 0 (by omega)
  rw [Nat.add_zero] at first
  rw [word, first, same 1 (by omega), same 2 (by omega), same 3 (by omega)]
  exact word_parts v

theorem byteOf_word {k : Nat} (few : k < 4) : byteOf (word b a) k = b (a + k) := by
  have b₀ := (b a).toNat_lt
  have b₁ := (b (a + 1)).toNat_lt
  have b₂ := (b (a + 2)).toNat_lt
  have b₃ := (b (a + 3)).toNat_lt
  apply UInt8.toNat_inj.mp
  simp only [byteOf, word, UInt8.toNat_ofNat', UInt32.toNat_ofNat']
  rcases (by omega : k = 0 ∨ k = 1 ∨ k = 2 ∨ k = 3) with rfl | rfl | rfl | rfl
  · simp only [Nat.reducePow, Nat.add_zero]
    omega
  · simp only [Nat.reducePow]
    omega
  · simp only [Nat.reducePow]
    omega
  · simp only [Nat.reducePow]
    omega

theorem word_eq_iff : word b a = v ↔ ∀ k, k < 4 → b (a + k) = byteOf v k := by
  constructor
  · rintro rfl k few
    exact (byteOf_word few).symm
  · exact word_of_bytes

theorem word_putWord : word (putWord b a v) a = v :=
  word_of_bytes fun _ few => putWord_inside few

theorem word_congr (same : ∀ k, k < 4 → b' (a + k) = b (a + k)) : word b' a = word b a := by
  have first := same 0 (by omega)
  rw [Nat.add_zero] at first
  rw [word, word, first, same 1 (by omega), same 2 (by omega), same 3 (by omega)]

end words

end ByteMemory
