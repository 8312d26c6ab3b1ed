import Mathlib.Data.List.Basic

/-!
Two machines that take calls and give replies. When every single call keeps their states
related and gets the same reply from both, so does every sequence of calls.
-/
namespace Simulation
variable {Call Reply σ τ ε δ : Type}

def run (step : Call → σ → Except ε (Reply × σ)) : List Call → σ → Except ε (List Reply × σ)
  | [], m => .ok ([], m)
  | call :: rest, m =>
    match step call m with
    | .error e => .error e
    | .ok (reply, m') =>
      match run step rest m' with
      | .error e => .error e
      | .ok (replies, m'') => .ok (reply :: replies, m'')

theorem run_cons_ok {step : Call → σ → Except ε (Reply × σ)} {call : Call} {rest : List Call}
    {m m' m'' : σ} {reply : Reply} {replies : List Reply} (first : step call m = .ok (reply, m'))
    (later : run step rest m' = .ok (replies, m'')) :
    run step (call :: rest) m = .ok (reply :: replies, m'') := by
  simp only [run, first, later]

theorem run_rest {step : Call → σ → Except ε (Reply × σ)} {call : Call} {rest : List Call}
    {m m' m'' : σ} {reply : Reply} {replies : List Reply} (first : step call m = .ok (reply, m'))
    (run : run step (call :: rest) m = .ok (replies, m'')) :
    ∃ later, Simulation.run step rest m' = .ok (later, m'') := by
  simp only [Simulation.run, first] at run
  cases others : Simulation.run step rest m' with
  | error e =>
    rw [others] at run
    cases run
  | ok result =>
    rw [others] at run
    cases run
    exact ⟨_, rfl⟩

theorem run_append_ok {step : Call → σ → Except ε (Reply × σ)} {calls others : List Call}
    {m m' m'' : σ} {replies later : List Reply} (first : run step calls m = .ok (replies, m'))
    (second : run step others m' = .ok (later, m'')) :
    run step (calls ++ others) m = .ok (replies ++ later, m'') := by
  induction calls generalizing m replies with
  | nil =>
    cases first
    exact second
  | cons call rest ih =>
    cases here : step call m with
    | error e =>
      simp only [run, here] at first
      cases first
    | ok result =>
      simp only [run, here] at first
      cases middle : run step rest result.2 with
      | error e =>
        simp only [middle] at first
        cases first
      | ok answers =>
        simp only [middle] at first
        cases first
        exact run_cons_ok here (ih middle)

theorem run_flatMap {Block : Type} {step : Call → σ → Except ε (Reply × σ)}
    {calls : Block → List Call} {blocks : List Block} {m m' : σ} {replies : List (List Reply)}
    (blockwise : run (fun block => run step (calls block)) blocks m = .ok (replies, m')) :
    run step (blocks.flatMap calls) m = .ok (replies.flatten, m') := by
  induction blocks generalizing m replies with
  | nil =>
    cases blockwise
    rfl
  | cons block rest ih =>
    cases here : run step (calls block) m with
    | error e =>
      simp only [run, here] at blockwise
      cases blockwise
    | ok result =>
      let blocked : Block → σ → Except ε (List Reply × σ) := fun block => run step (calls block)
      have first : blocked block m = .ok result := here
      change run blocked (block :: rest) m = _ at blockwise
      obtain ⟨later, others⟩ := run_rest first blockwise
      rw [run_cons_ok first others] at blockwise
      cases blockwise
      exact run_append_ok here (ih others)

section log
variable {calls : List Call} {replies : List Reply} (same : calls.length = replies.length)
include same

theorem length_snoc (call : Call) (reply : Reply) :
    (calls ++ [call]).length = (replies ++ [reply]).length := by
  rw [List.length_append, List.length_append, same]
  rfl

theorem mem_log_snoc {call : Call} {reply : Reply} {x : Call × Reply} :
    x ∈ (calls ++ [call]).zip (replies ++ [reply]) ↔ x ∈ calls.zip replies ∨ x = (call, reply) := by
  rw [List.zip_append same, List.mem_append]
  exact or_congr_right List.mem_singleton

end log

/-- The relation `R` is kept by the calls that `allowed` lets in. -/
def Simulates (step : Call → σ → Except ε (Reply × σ)) (step' : Call → τ → Except δ (Reply × τ))
    (allowed : Call → Prop) (R : σ → τ → Prop) : Prop :=
  ∀ call m s, allowed call → R m s → ∃ reply m' s',
    step call m = .ok (reply, m') ∧ step' call s = .ok (reply, s') ∧ R m' s'

theorem Simulates.run {step : Call → σ → Except ε (Reply × σ)}
    {step' : Call → τ → Except δ (Reply × τ)} {allowed : Call → Prop} {R : σ → τ → Prop}
    (simulates : Simulates step step' allowed R) {calls : List Call}
    (each : ∀ call ∈ calls, allowed call) {m : σ} {s : τ} (related : R m s) :
    ∃ replies m' s', run step calls m = .ok (replies, m') ∧
      run step' calls s = .ok (replies, s') ∧ R m' s' := by
  induction calls generalizing m s with
  | nil => exact ⟨[], m, s, rfl, rfl, related⟩
  | cons call rest ih =>
    obtain ⟨reply, m₁, s₁, first, first', related₁⟩ :=
      simulates call m s (each call List.mem_cons_self) related
    obtain ⟨replies, m', s', later, later', related'⟩ :=
      ih (fun call mem => each call (List.mem_cons_of_mem _ mem)) related₁
    exact ⟨reply :: replies, m', s', run_cons_ok first later, run_cons_ok first' later', related'⟩

theorem run_keeps {step : Call → σ → Except ε (Reply × σ)} {allowed : Call → Prop}
    {inv : List Call → List Reply → σ → Prop}
    (each : ∀ call calls replies m, allowed call → inv calls replies m →
      ∃ reply m', step call m = .ok (reply, m') ∧ inv (calls ++ [call]) (replies ++ [reply]) m')
    {calls before : List Call} {replies : List Reply} {m : σ}
    (ok : ∀ call ∈ calls, allowed call) (start : inv before replies m) :
    ∃ later m', run step calls m = .ok (later, m') ∧
      inv (before ++ calls) (replies ++ later) m' := by
  induction calls generalizing before replies m with
  | nil =>
    refine ⟨[], m, rfl, ?_⟩
    rwa [List.append_nil, List.append_nil]
  | cons call rest ih =>
    obtain ⟨reply, m₁, first, kept⟩ := each call before replies m (ok call List.mem_cons_self) start
    obtain ⟨later, m', run, kept'⟩ := ih (fun c mem => ok c (List.mem_cons_of_mem _ mem)) kept
    refine ⟨reply :: later, m', run_cons_ok first run, ?_⟩
    rwa [List.append_assoc, List.append_assoc] at kept'

/-- The condition holds of each call, with the calls before it. -/
def Throughout (fine : List Call → Call → Prop) : (before calls : List Call) → Prop
  | _, [] => True
  | before, call :: rest => fine before call ∧ Throughout fine (before ++ [call]) rest

instance Throughout.decidable (fine : List Call → Call → Prop)
    [∀ before call, Decidable (fine before call)] :
    (before calls : List Call) → Decidable (Throughout fine before calls)
  | _, [] => inferInstanceAs (Decidable True)
  | before, call :: rest =>
    have := Throughout.decidable fine (before ++ [call]) rest
    inferInstanceAs (Decidable (_ ∧ _))

theorem throughout_and {fine fine' : List Call → Call → Prop} {before : List Call}
    (calls : List Call) :
    Throughout (fun before call => fine before call ∧ fine' before call) before calls ↔
      Throughout fine before calls ∧ Throughout fine' before calls := by
  induction calls generalizing before with
  | nil => exact (and_self_iff (a := True)).symm
  | cons call rest ih =>
    rw [Throughout, Throughout, Throughout, ih]
    constructor
    · rintro ⟨⟨here, here'⟩, later, later'⟩
      exact ⟨⟨here, later⟩, here', later'⟩
    · rintro ⟨⟨here, later⟩, here', later'⟩
      exact ⟨⟨here, here'⟩, later, later'⟩

/-- Where the calls so far decide whether a call succeeds and what it replies, they decide it for
    a whole sequence. -/
theorem run_ok_iff {step : Call → σ → Except ε (Reply × σ)} {inv : List Call → σ → Prop}
    {fine : List Call → Call → Prop} {answer : Call → Reply}
    (succeeds : ∀ before call m, inv before m → fine before call →
      ∃ m', step call m = .ok (answer call, m') ∧ inv (before ++ [call]) m')
    (fails : ∀ before call m, inv before m → ¬ fine before call → ∃ e, step call m = .error e)
    {before : List Call} {m : σ} (start : inv before m) (calls : List Call) :
    (Throughout fine before calls →
      ∃ m', run step calls m = .ok (calls.map answer, m') ∧ inv (before ++ calls) m') ∧
    (¬ Throughout fine before calls → ∃ e, run step calls m = .error e) := by
  induction calls generalizing before m with
  | nil =>
    constructor
    · intro _
      exact ⟨m, rfl, by rwa [List.append_nil]⟩
    · intro bad
      exact absurd trivial bad
  | cons call rest ih =>
    by_cases here : fine before call
    · obtain ⟨m₁, first, kept⟩ := succeeds before call m start here
      obtain ⟨good, bad⟩ := ih kept
      constructor
      · intro all
        obtain ⟨m', later, kept'⟩ := good all.2
        rw [List.append_assoc] at kept'
        exact ⟨m', run_cons_ok first later, kept'⟩
      · intro not
        obtain ⟨e, later⟩ := bad fun rest => not ⟨here, rest⟩
        exact ⟨e, by simp only [run, first, later]⟩
    · obtain ⟨e, first⟩ := fails before call m start here
      constructor
      · intro all
        exact absurd all.1 here
      · intro _
        exact ⟨e, by simp only [run, first]⟩

end Simulation
