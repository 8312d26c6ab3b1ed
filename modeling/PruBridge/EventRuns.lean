import Mathlib.Data.List.Basic

/-!
Runs of a system that takes one event after another, where an event that is not possible
ends the run. The rules carry an invariant along a run, and say when a condition on the
events is exactly what keeps every state of a run safe.
-/
namespace EventRuns
variable {σ ε : Type*} (step : σ → ε → Option σ)

def run : List ε → σ → Option σ
  | [], s => some s
  | e :: rest, s => (step s e).bind (run rest)

def visited : List ε → σ → List σ
  | [], s => [s]
  | e :: rest, s => s :: (step s e).elim [] (visited rest)

variable {step} {s t : σ} {e : ε} {rest es : List ε}

theorem visited_cons (next : step s e = some t) :
    visited step (e :: rest) s = s :: visited step rest t := by
  rw [visited, next]
  rfl

theorem run_cons_some (ran : run step (e :: rest) s = some t) :
    ∃ m, step s e = some m ∧ run step rest m = some t :=
  Option.bind_eq_some_iff.mp ran

theorem mem_visited_start (es : List ε) (s : σ) : s ∈ visited step es s := by
  cases es with
  | nil => exact List.mem_singleton_self s
  | cons e rest => exact List.mem_cons_self

theorem run_invariant {I : σ → Prop} (kept : ∀ {s e t}, I s → step s e = some t → I t)
    (init : I s) (ran : run step es s = some t) : I t := by
  induction es generalizing s with
  | nil =>
    cases ran
    exact init
  | cons e rest ih =>
    obtain ⟨m, next, later⟩ := run_cons_some ran
    exact ih (kept init next) later

theorem visited_invariant {I : σ → Prop} {may : ε → Prop}
    (kept : ∀ {s e t}, may e → I s → step s e = some t → I t) (only : ∀ e ∈ es, may e)
    (init : I s) : ∀ x ∈ visited step es s, I x := by
  induction es generalizing s with
  | nil =>
    intro x mem
    rw [List.mem_singleton.mp mem]
    exact init
  | cons e rest ih =>
    intro x mem
    rcases List.mem_cons.mp mem with first | later
    · rw [first]
      exact init
    · cases next : step s e with
      | none =>
        rw [next] at later
        cases later
      | some m =>
        rw [next] at later
        exact ih (fun d mem => only d (List.mem_cons_of_mem e mem))
          (kept (only e List.mem_cons_self) init next) x later

/-- If `may` events keep an invariant that makes a state safe, and every other event that is
    possible then leads to an unsafe state, a run stays safe exactly on `may` events. -/
theorem visited_safe_iff {I safe : σ → Prop} {may : ε → Prop}
    (kept : ∀ {s e t}, may e → I s → step s e = some t → I t) (sound : ∀ {s}, I s → safe s)
    (breaks : ∀ {s e t}, ¬ may e → I s → step s e = some t → ¬ safe t)
    (init : I s) (ran : run step es s = some t) :
    (∀ x ∈ visited step es s, safe x) ↔ ∀ e ∈ es, may e := by
  constructor
  · intro all
    induction es generalizing s with
    | nil =>
      intro e mem
      cases mem
    | cons e rest ih =>
      obtain ⟨m, next, later⟩ := run_cons_some ran
      rw [visited_cons next] at all
      have here : may e := by
        by_contra wrong
        exact breaks wrong init next (all m (List.mem_cons_of_mem s (mem_visited_start rest m)))
      intro d mem
      rcases List.mem_cons.mp mem with first | others
      · rw [first]
        exact here
      · exact ih (kept here init next) later (fun x mem => all x (List.mem_cons_of_mem s mem)) d
          others
  · intro only x mem
    exact sound (visited_invariant kept only init x mem)

end EventRuns
