import Mathlib.Logic.Function.Basic
import Mathlib.Data.List.Basic

/-!
Programs whose only effects are single loads and single stores of typed cells.
A program is a tree: a load branches on the value it finds. The tree fixes the
order of the accesses of one party; what other parties do between two of them
is left to the reader of the tree (`run` lets nobody in between).
-/
namespace AtomicProgram

class Memory (σ : Type) (Cell : outParam Type) (Val : outParam (Cell → Type)) where
  get : σ → (c : Cell) → Val c
  set : σ → (c : Cell) → Val c → σ
  get_set_of_ne : ∀ (m : σ) (c d : Cell) (v : Val c), d ≠ c → get (set m c v) d = get m d

class ReadsBack (σ : Type) {Cell : outParam Type} {Val : outParam (Cell → Type)}
    [Memory σ Cell Val] : Prop where
  get_set_self : ∀ (m : σ) (c : Cell) (v : Val c), Memory.get (Memory.set m c v) c = v

inductive Access (Cell : Type) (Val : Cell → Type) where
  | load (c : Cell)
  | store (c : Cell) (v : Val c)

def Access.cell {Cell : Type} {Val : Cell → Type} : Access Cell Val → Cell
  | .load c => c
  | .store c _ => c

def Access.perform {Cell σ : Type} {Val : Cell → Type} [Memory σ Cell Val] :
    Access Cell Val → σ → σ
  | .load _, m => m
  | .store c v, m => Memory.set m c v

inductive Prog (Cell : Type) (Val : Cell → Type) (Fault α : Type) where
  | ret (a : α)
  | fault (e : Fault)
  | load (c : Cell) (next : Val c → Prog Cell Val Fault α)
  | store (c : Cell) (v : Val c) (next : Prog Cell Val Fault α)

namespace Prog
variable {Cell : Type} {Val : Cell → Type} {Fault α β σ : Type}

def bind : Prog Cell Val Fault α → (α → Prog Cell Val Fault β) → Prog Cell Val Fault β
  | .ret a, f => f a
  | .fault e, _ => .fault e
  | .load c next, f => .load c fun v => (next v).bind f
  | .store c v next, f => .store c v (next.bind f)

instance : Monad (Prog Cell Val Fault) where
  pure := .ret
  bind := bind

theorem bind_ret (p : Prog Cell Val Fault α) : p.bind .ret = p := by
  induction p with
  | ret a => rfl
  | fault e => rfl
  | load c next ih => simp only [bind, ih]
  | store c v next ih => simp only [bind, ih]

theorem bind_assoc {γ : Type} (p : Prog Cell Val Fault α) (f : α → Prog Cell Val Fault β)
    (g : β → Prog Cell Val Fault γ) : (p.bind f).bind g = p.bind fun a => (f a).bind g := by
  induction p with
  | ret a => rfl
  | fault e => rfl
  | load c next ih => simp only [bind, ih]
  | store c v next ih => simp only [bind, ih]

instance : LawfulMonad (Prog Cell Val Fault) :=
  LawfulMonad.mk' _ (fun p => bind_ret p) (fun _ _ => rfl) (fun p f g => bind_assoc p f g)

@[simp] theorem ret_bind (a : α) (f : α → Prog Cell Val Fault β) :
    (Prog.ret a >>= f) = f a := rfl

@[simp] theorem fault_bind (e : Fault) (f : α → Prog Cell Val Fault β) :
    (Prog.fault e >>= f) = .fault e := rfl

@[simp] theorem load_bind (c : Cell) (next : Val c → Prog Cell Val Fault α)
    (f : α → Prog Cell Val Fault β) :
    (Prog.load c next >>= f) = .load c fun v => next v >>= f := rfl

@[simp] theorem store_bind (c : Cell) (v : Val c) (next : Prog Cell Val Fault α)
    (f : α → Prog Cell Val Fault β) :
    (Prog.store c v next >>= f) = .store c v (next >>= f) := rfl

@[simp] theorem ret_map (a : α) (f : α → β) :
    (f <$> Prog.ret a : Prog Cell Val Fault β) = .ret (f a) := rfl

@[simp] theorem load_map (c : Cell) (next : Val c → Prog Cell Val Fault α) (f : α → β) :
    (f <$> Prog.load c next) = .load c fun v => f <$> next v := rfl

@[simp] theorem store_map (c : Cell) (v : Val c) (next : Prog Cell Val Fault α) (f : α → β) :
    (f <$> Prog.store c v next) = .store c v (f <$> next) := rfl

/-- The next access and what remains after it, for a program about to run in `m`. -/
def next [Memory σ Cell Val] : Prog Cell Val Fault α → σ →
    Option (Access Cell Val × Prog Cell Val Fault α)
  | .ret _, _ => none
  | .fault _, _ => none
  | .load c k, m => some (.load c, k (Memory.get m c))
  | .store c v k, _ => some (.store c v, k)

/-- The whole program with nobody else touching the memory. -/
def run [Memory σ Cell Val] : Prog Cell Val Fault α → σ → Except Fault (α × σ)
  | .ret a, m => .ok (a, m)
  | .fault e, _ => .error e
  | .load c k, m => (k (Memory.get m c)).run m
  | .store c v k, m => k.run (Memory.set m c v)

/-- Every access of that run, with the memory right after it. -/
def path [Memory σ Cell Val] : Prog Cell Val Fault α → σ → List (Access Cell Val × σ)
  | .ret _, _ => []
  | .fault _, _ => []
  | .load c k, m => (.load c, m) :: (k (Memory.get m c)).path m
  | .store c v k, m => (.store c v, Memory.set m c v) :: k.path (Memory.set m c v)

def trace [Memory σ Cell Val] (p : Prog Cell Val Fault α) (m : σ) : List (Access Cell Val) :=
  (p.path m).map Prod.fst

def states [Memory σ Cell Val] (p : Prog Cell Val Fault α) (m : σ) : List σ :=
  (p.path m).map Prod.snd

def Only (may : Access Cell Val → Prop) : Prog Cell Val Fault α → Prop
  | .ret _ => True
  | .fault _ => True
  | .load c next => may (.load c) ∧ ∀ v, (next v).Only may
  | .store c v next => may (.store c v) ∧ next.Only may

section only
variable {may : Access Cell Val → Prop}

@[simp] theorem only_ret (a : α) : (Prog.ret a : Prog Cell Val Fault α).Only may := trivial

@[simp] theorem only_fault (e : Fault) : (Prog.fault e : Prog Cell Val Fault α).Only may := trivial

@[simp] theorem only_load (c : Cell) (next : Val c → Prog Cell Val Fault α) :
    (Prog.load c next).Only may ↔ may (.load c) ∧ ∀ v, (next v).Only may := Iff.rfl

@[simp] theorem only_store (c : Cell) (v : Val c) (next : Prog Cell Val Fault α) :
    (Prog.store c v next).Only may ↔ may (.store c v) ∧ next.Only may := Iff.rfl

theorem Only.weaken {may' : Access Cell Val → Prop} {p : Prog Cell Val Fault α}
    (only : p.Only may) (weaker : ∀ a, may a → may' a) : p.Only may' := by
  induction p with
  | ret a => trivial
  | fault e => trivial
  | load c next ih => exact ⟨weaker _ only.1, fun v => ih v (only.2 v)⟩
  | store c v next ih => exact ⟨weaker _ only.1, ih only.2⟩

theorem only_of_all (all : ∀ a, may a) (p : Prog Cell Val Fault α) : p.Only may := by
  induction p with
  | ret a => trivial
  | fault e => trivial
  | load c next ih => exact ⟨all _, ih⟩
  | store c v next ih => exact ⟨all _, ih⟩

theorem Only.bind {p : Prog Cell Val Fault α} {f : α → Prog Cell Val Fault β}
    (first : p.Only may) (later : ∀ a, (f a).Only may) : (p >>= f).Only may := by
  induction p with
  | ret a => exact later a
  | fault e => trivial
  | load c next ih => exact ⟨first.1, fun v => ih v (first.2 v)⟩
  | store c v next ih => exact ⟨first.1, ih first.2⟩

theorem Only.map {p : Prog Cell Val Fault α} (only : p.Only may) (f : α → β) :
    (f <$> p).Only may := by
  rw [map_eq_pure_bind]
  exact only.bind fun _ => trivial

theorem Only.run_get [Memory σ Cell Val] {p : Prog Cell Val Fault α} (only : p.Only may) {d : Cell}
    (apart : ∀ v, ¬ may (.store d v)) {m m' : σ} {a : α} (run : p.run m = .ok (a, m')) :
    Memory.get m' d = Memory.get m d := by
  induction p generalizing m with
  | ret a => cases run; rfl
  | fault e => cases run
  | load c next ih => exact ih _ (only.2 _) run
  | store c v next ih =>
    have other : d ≠ c := by
      rintro rfl
      exact apart v only.1
    rw [ih only.2 run, Memory.get_set_of_ne m c d v other]

theorem Only.trace [Memory σ Cell Val] {p : Prog Cell Val Fault α} (only : p.Only may) (m : σ)
    {a : Access Cell Val} (mem : a ∈ p.trace m) : may a := by
  induction p generalizing m with
  | ret r => cases mem
  | fault e => cases mem
  | load c next ih =>
    rcases List.mem_cons.mp mem with rfl | later
    · exact only.1
    · exact ih _ (only.2 _) m later
  | store c v next ih =>
    rcases List.mem_cons.mp mem with rfl | later
    · exact only.1
    · exact ih only.2 _ later

theorem Only.states_get [Memory σ Cell Val] {p : Prog Cell Val Fault α} (only : p.Only may)
    {d : Cell} (apart : ∀ v, ¬ may (.store d v)) {m s : σ} (mem : s ∈ p.states m) :
    Memory.get s d = Memory.get m d := by
  induction p generalizing m with
  | ret r => cases mem
  | fault e => cases mem
  | load c next ih =>
    rcases List.mem_cons.mp mem with rfl | later
    · rfl
    · exact ih _ (only.2 _) later
  | store c v next ih =>
    have other : d ≠ c := by
      rintro rfl
      exact apart v only.1
    have here : Memory.get (Memory.set m c v) d = Memory.get m d :=
      Memory.get_set_of_ne m c d v other
    rcases List.mem_cons.mp mem with rfl | later
    · exact here
    · rw [ih only.2 later, here]

end only

section semantics
variable [Memory σ Cell Val] (m : σ)

@[simp] theorem run_ret (a : α) : (Prog.ret a : Prog Cell Val Fault α).run m = .ok (a, m) := rfl

@[simp] theorem run_pure (a : α) :
    (pure a : Prog Cell Val Fault α).run m = .ok (a, m) := rfl

@[simp] theorem run_fault (e : Fault) :
    (Prog.fault e : Prog Cell Val Fault α).run m = .error e := rfl

@[simp] theorem run_load (c : Cell) (k : Val c → Prog Cell Val Fault α) :
    (Prog.load c k).run m = (k (Memory.get m c)).run m := rfl

@[simp] theorem run_store (c : Cell) (v : Val c) (k : Prog Cell Val Fault α) :
    (Prog.store c v k).run m = k.run (Memory.set m c v) := rfl

@[simp] theorem trace_ret (a : α) : (Prog.ret a : Prog Cell Val Fault α).trace m = [] := rfl

@[simp] theorem states_ret (a : α) : (Prog.ret a : Prog Cell Val Fault α).states m = [] := rfl

@[simp] theorem states_load (c : Cell) (k : Val c → Prog Cell Val Fault α) :
    (Prog.load c k).states m = m :: (k (Memory.get m c)).states m := rfl

@[simp] theorem states_store (c : Cell) (v : Val c) (k : Prog Cell Val Fault α) :
    (Prog.store c v k).states m = Memory.set m c v :: k.states (Memory.set m c v) := rfl

theorem run_mem_states {p : Prog Cell Val Fault α} {m m' : σ} {a : α}
    (run : p.run m = .ok (a, m')) : m' = m ∨ m' ∈ p.states m := by
  induction p generalizing m with
  | ret r =>
    cases run
    exact Or.inl rfl
  | fault e => cases run
  | load c k ih =>
    rcases ih _ run with same | mem
    · exact Or.inl same
    · exact Or.inr (List.mem_cons_of_mem m mem)
  | store c v k ih =>
    rcases ih run with same | mem
    · exact Or.inr (by rw [same]; exact List.mem_cons_self)
    · exact Or.inr (List.mem_cons_of_mem _ mem)

@[simp] theorem trace_pure (a : α) : (pure a : Prog Cell Val Fault α).trace m = [] := rfl

@[simp] theorem trace_fault (e : Fault) :
    (Prog.fault e : Prog Cell Val Fault α).trace m = [] := rfl

@[simp] theorem trace_load (c : Cell) (k : Val c → Prog Cell Val Fault α) :
    (Prog.load c k).trace m = .load c :: (k (Memory.get m c)).trace m := rfl

@[simp] theorem trace_store (c : Cell) (v : Val c) (k : Prog Cell Val Fault α) :
    (Prog.store c v k).trace m = .store c v :: k.trace (Memory.set m c v) := rfl

theorem run_bind (p : Prog Cell Val Fault α) (f : α → Prog Cell Val Fault β) :
    (p >>= f).run m = match p.run m with
      | .ok (a, m') => (f a).run m'
      | .error e => .error e := by
  induction p generalizing m with
  | ret a => rfl
  | fault e => rfl
  | load c k ih => exact ih _ m
  | store c v k ih => exact ih _

theorem run_bind_ok {p : Prog Cell Val Fault α} {f : α → Prog Cell Val Fault β} {m m' : σ} {a : α}
    (first : p.run m = .ok (a, m')) : (p >>= f).run m = (f a).run m' := by
  rw [run_bind, first]

theorem exists_of_run_bind {p : Prog Cell Val Fault α} {f : α → Prog Cell Val Fault β} {m m'' : σ}
    {b : β} (run : (p >>= f).run m = .ok (b, m'')) :
    ∃ a m', p.run m = .ok (a, m') ∧ (f a).run m' = .ok (b, m'') := by
  rw [run_bind] at run
  cases first : p.run m with
  | error e =>
    rw [first] at run
    cases run
  | ok result =>
    rw [first] at run
    exact ⟨result.1, result.2, rfl, run⟩

theorem run_map_ok {p : Prog Cell Val Fault α} {f : α → β} {m m' : σ} {a : α}
    (first : p.run m = .ok (a, m')) : (f <$> p).run m = .ok (f a, m') := by
  rw [map_eq_pure_bind, run_bind_ok first]
  rfl

theorem exists_of_run_map {p : Prog Cell Val Fault α} {f : α → β} {m m' : σ} {b : β}
    (run : (f <$> p).run m = .ok (b, m')) : ∃ a, p.run m = .ok (a, m') ∧ f a = b := by
  rw [map_eq_pure_bind] at run
  obtain ⟨a, m₁, first, last⟩ := exists_of_run_bind run
  cases last
  exact ⟨a, first, rfl⟩

theorem path_bind (p : Prog Cell Val Fault α) (f : α → Prog Cell Val Fault β) :
    (p >>= f).path m = p.path m ++ match p.run m with
      | .ok (a, m') => (f a).path m'
      | .error _ => [] := by
  induction p generalizing m with
  | ret a => rfl
  | fault e => rfl
  | load c k ih => exact congrArg (_ :: ·) (ih _ m)
  | store c v k ih => exact congrArg (_ :: ·) (ih _)

theorem trace_bind (p : Prog Cell Val Fault α) (f : α → Prog Cell Val Fault β) :
    (p >>= f).trace m = p.trace m ++ match p.run m with
      | .ok (a, m') => (f a).trace m'
      | .error _ => [] := by
  simp only [trace, path_bind, List.map_append]
  cases p.run m <;> rfl

theorem trace_bind_ok {p : Prog Cell Val Fault α} {f : α → Prog Cell Val Fault β} {m m' : σ}
    {a : α} (first : p.run m = .ok (a, m')) :
    (p >>= f).trace m = p.trace m ++ (f a).trace m' := by
  rw [trace_bind, first]

@[simp] theorem trace_map (p : Prog Cell Val Fault α) (f : α → β) :
    (f <$> p).trace m = p.trace m := by
  rw [map_eq_pure_bind, trace_bind]
  cases p.run m <;> exact List.append_nil _

theorem states_bind (p : Prog Cell Val Fault α) (f : α → Prog Cell Val Fault β) :
    (p >>= f).states m = p.states m ++ match p.run m with
      | .ok (a, m') => (f a).states m'
      | .error _ => [] := by
  simp only [states, path_bind, List.map_append]
  cases p.run m <;> rfl

theorem states_bind_ok {p : Prog Cell Val Fault α} {f : α → Prog Cell Val Fault β} {m m' : σ}
    {a : α} (first : p.run m = .ok (a, m')) :
    (p >>= f).states m = p.states m ++ (f a).states m' := by
  rw [states_bind, first]

end semantics

end Prog

end AtomicProgram
