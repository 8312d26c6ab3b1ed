import Mathlib.Data.Nat.Basic

/-!
Progress in runs without end. A condition is a predicate of the time; a kind of step that is
taken again and again reaches what a single such step brings about.
-/
namespace Fairness

def Recurrent (p : Nat → Prop) : Prop := ∀ t, ∃ u, t ≤ u ∧ p u

def LeadsTo (P Q : Nat → Prop) : Prop := ∀ t, P t → ∃ u, t ≤ u ∧ Q u

theorem LeadsTo.trans {P Q R : Nat → Prop} (first : LeadsTo P Q) (second : LeadsTo Q R) :
    LeadsTo P R := by
  intro t now
  obtain ⟨u, later, middle⟩ := first t now
  obtain ⟨v, last, done⟩ := second u middle
  exact ⟨v, Nat.le_trans later last, done⟩

/-- `P` stays until `Q` holds, and a step of the recurrent kind makes `Q` hold. -/
theorem leadsTo_of_step {P Q helpful : Nat → Prop} (again : Recurrent helpful)
    (waits : ∀ t, P t → Q (t + 1) ∨ P (t + 1)) (helps : ∀ t, P t → helpful t → Q (t + 1)) :
    LeadsTo P Q := by
  intro t now
  obtain ⟨u, later, help⟩ := again t
  obtain ⟨d, rfl⟩ := Nat.exists_eq_add_of_le later
  clear later
  induction d generalizing t with
  | zero => exact ⟨t + 1, Nat.le_succ t, helps t now help⟩
  | succ d ih =>
    rcases waits t now with done | still
    · exact ⟨t + 1, Nat.le_succ t, done⟩
    · have help' : helpful (t + 1 + d) := by rwa [Nat.add_right_comm]
      obtain ⟨u, later, done⟩ := ih (t + 1) still help'
      exact ⟨u, Nat.le_of_succ_le later, done⟩

theorem LeadsTo.unbounded {P : Nat → Nat → Prop} (next : ∀ k, LeadsTo (P k) (P (k + 1))) (k : Nat) :
    LeadsTo (P 0) (P k) := by
  induction k with
  | zero => exact fun t now => ⟨t, Nat.le_refl t, now⟩
  | succ k ih => exact ih.trans (next k)

end Fairness
