import Mathlib.Algebra.Order.Ring.Int
import Mathlib.Data.List.Basic
import Mathlib.Data.Nat.Bits
import Mathlib.Tactic.Basic

/-!
`write` of the Python library (`PythonLib/Library/pru_bridge.py`), for a value that is not
negative. A file takes one byte value a call. Nothing in the body of the loop changes `i`.
-/
namespace PruBridge.Python

structure Loop where
  i : Int
  written : List Nat
  deriving DecidableEq

/-- `while i >= 0: a[channel_no - 1].write((data >> (i * 8)) & 0xff)`, one round of it. -/
def writeRound (data : Nat) (s : Loop) : Option Loop :=
  if s.i ≥ 0 then
    some { s with written := s.written ++ [(data >>> (s.i * 8).toNat) &&& 0xff] }
  else
    none

def writeRounds (data : Nat) : (n : Nat) → Loop → Option Loop
  | 0, s => some s
  | n + 1, s => (writeRound data s).bind (writeRounds data n)

def writeStart (length : Int) : Loop := ⟨length - 1, []⟩

/-- `write(channel_no,data,length)` returns, and the file has been given `out`. -/
def WriteReturns (data : Nat) (length : Int) (out : List Nat) : Prop :=
  ∃ n s, writeRounds data n (writeStart length) = some s ∧ writeRound data s = none ∧
    s.written = out

def bigEndian (data n : Nat) : List Nat :=
  (List.range n).reverse.map fun j => data % 256 ^ n / 256 ^ j % 256

theorem byte_eq (data k : Nat) : (data >>> (k * 8)) &&& 0xff = data / 256 ^ k % 256 := by
  have ones : 0xff = 2 ^ 8 - 1 := rfl
  have base : 2 ^ (k * 8) = 256 ^ k := by
    rw [Nat.mul_comm, Nat.pow_mul]
  rw [ones, Nat.and_two_pow_sub_one_eq_mod, Nat.shiftRight_eq_div_pow, base]

/-- The file gets the same byte, the highest of the value, as often as one likes. -/
theorem writeRounds_repeat (data k n : Nat) (written : List Nat) :
    writeRounds data n ⟨k, written⟩ =
      some ⟨k, written ++ List.replicate n (data / 256 ^ k % 256)⟩ := by
  induction n generalizing written with
  | zero => simp [writeRounds]
  | succ n ih =>
    have byte := byte_eq data k
    have place : ((k : Int) * 8).toNat = k * 8 := by omega
    have once : writeRound data ⟨k, written⟩ = some ⟨k, written ++ [data / 256 ^ k % 256]⟩ := by
      simp [writeRound, place, byte]
    rw [writeRounds, once, Option.bind_some, ih, List.append_assoc, List.replicate_succ]
    rfl

theorem not_returns {length : Int} (pos : 0 < length) (data : Nat) (out : List Nat) :
    ¬ WriteReturns data length out := by
  obtain ⟨k, last⟩ := Int.eq_ofNat_of_zero_le (by omega : 0 ≤ length - 1)
  intro returns
  rcases returns with ⟨n, s, ran, stopped, -⟩
  rw [writeStart, last, writeRounds_repeat] at ran
  cases ran
  simp [writeRound] at stopped

/-- `write` emits the digits of its value and returns exactly for the length 0. For any other it
    goes on writing the highest byte. -/
theorem write_returns_iff (data : Nat) (length : Int) (nonneg : 0 ≤ length) :
    (WriteReturns data length (bigEndian data length.toNat) ↔ length = 0) ∧
    (0 < length → ∀ n, writeRounds data n (writeStart length) = some ⟨length - 1,
      List.replicate n (data / 256 ^ (length - 1).toNat % 256)⟩) := by
  constructor
  · constructor
    · intro returns
      by_contra other
      exact not_returns (by omega) data _ returns
    · intro zero
      subst zero
      exact ⟨0, writeStart 0, rfl, rfl, rfl⟩
  · intro pos n
    have last : ((length - 1).toNat : Int) = length - 1 := Int.toNat_of_nonneg (by omega)
    have ran := writeRounds_repeat data (length - 1).toNat n []
    rw [last, List.nil_append] at ran
    exact ran

theorem write_two_goes_on : ¬ WriteReturns 513 2 (bigEndian 513 2) ∧
    ∀ n, writeRounds 513 n (writeStart 2) = some ⟨1, List.replicate n 2⟩ := by
  obtain ⟨returns, repeats⟩ := write_returns_iff 513 2 (by decide)
  exact ⟨fun done => absurd (returns.mp done) (by decide), repeats (by decide)⟩

/-- The value 513 on two bytes: the file gets 2, 2, 2 and so on. -/
theorem write_goes_on : bigEndian 513 2 = [2, 1] ∧
    writeRounds 513 3 (writeStart 2) = some ⟨1, [2, 2, 2]⟩ ∧
    ¬ WriteReturns 513 2 (bigEndian 513 2) :=
  ⟨rfl, by decide, not_returns (by decide) 513 _⟩

end PruBridge.Python
