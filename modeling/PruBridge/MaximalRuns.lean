import Mathlib.Data.List.TakeWhile

/-!
The maximal runs of a list: the stretches of elements of one kind between the elements that
are not of that kind. A scanner that takes a whole run at once finds exactly these.
-/
namespace MaximalRuns
variable {α : Type*} (p q : α → Bool)

def runs (l : List α) : List (List α) :=
  (l.splitOnP fun a => !p a).filter fun run => !run.isEmpty

@[simp] theorem runs_nil : runs p [] = [] := by
  simp [runs]

variable {p q} {a : α}

theorem runs_cons_of_neg (other : p a = false) (l : List α) : runs p (a :: l) = runs p l := by
  simp [runs, List.splitOnP_cons_eq_if_modifyHead, other]

theorem runs_cons_of_pos (here : p a = true) (l : List α) :
    runs p (a :: l) = (a :: l).takeWhile p :: runs p ((a :: l).dropWhile p) := by
  have inside : ∀ x ∈ (a :: l).takeWhile p, (!p x) = false := by
    intro x mem
    simp [List.mem_takeWhile_imp mem]
  have whole : a :: l = (a :: l).takeWhile p ++ (a :: l).dropWhile p :=
    List.takeWhile_append_dropWhile.symm
  have some : ((a :: l).takeWhile p).isEmpty = false := by
    simp [List.takeWhile_cons_of_pos here]
  cases rest : (a :: l).dropWhile p with
  | nil =>
    rw [rest, List.append_nil] at whole
    rw [runs_nil, runs, whole, List.takeWhile_takeWhile]
    simp only [and_self, Bool.decide_eq_true]
    rw [List.splitOnP_eq_singleton inside]
    simp [some]
  | cons sep others =>
    have outside : p sep = false := by
      have first : (a :: l).dropWhile p ≠ [] := by
        rw [rest]
        exact List.cons_ne_nil sep others
      have stops := List.head_dropWhile_not p first
      simpa only [rest, List.head_cons] using stops
    have separates : (!p sep) = true := by rw [outside]; rfl
    have pieces := List.splitOnP_append_cons_of_forall_mem inside sep separates others
    rw [← rest, ← whole] at pieces
    rw [runs_cons_of_neg outside, runs, pieces, List.filter_cons_of_pos (by simp [some])]
    rfl

theorem takeWhile_takeWhile_of_imp (sub : ∀ x, q x = true → p x = true) (l : List α) :
    (l.takeWhile p).takeWhile q = l.takeWhile q := by
  rw [List.takeWhile_takeWhile]
  congr 1
  funext x
  by_cases here : q x = true
  · simp [here, sub x here]
  · simp [here]

theorem dropWhile_takeWhile_of_imp (sub : ∀ x, q x = true → p x = true) (l : List α) :
    (l.takeWhile p).dropWhile q = (l.dropWhile q).takeWhile p := by
  induction l with
  | nil => rfl
  | cons x rest ih =>
    by_cases here : q x = true
    · rw [List.takeWhile_cons_of_pos (sub x here), List.dropWhile_cons_of_pos here,
        List.dropWhile_cons_of_pos here, ih]
    · rw [List.dropWhile_cons_of_neg here]
      by_cases there : p x = true
      · rw [List.takeWhile_cons_of_pos there, List.dropWhile_cons_of_neg here]
      · rw [List.takeWhile_cons_of_neg there, List.dropWhile_nil]

end MaximalRuns
