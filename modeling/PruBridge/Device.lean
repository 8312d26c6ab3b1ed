import PruBridge.Projection

/-!
A memory below the cells: each party reads and writes a cell in its own way, through its own
addresses, and nothing keeps one cell apart from another by itself. Where the cells that the
programs use are kept apart, the parties run on the device as they run on the cells.
-/
namespace AtomicProgram

structure Device (ι Cell : Type) (Val : Cell → Type) (τ : Type) where
  read : ι → τ → (c : Cell) → Val c
  write : ι → τ → (c : Cell) → Val c → τ

variable {ι Call Cell : Type} {Val : Cell → Type} {Fault α β σ τ : Type}

def Confined [DecidableEq ι] [Memory σ Cell Val] (good : Cell → Prop)
    (C : Clients ι Call Cell Val Fault α σ) (m : σ) : Prop :=
  ∀ s : Conf ι Call Cell Val Fault α σ, Reach C (Conf.start m) s → ∀ i k p a q,
    s.busy i = some (k, p) → p.next s.world.mem = some (a, q) → good a.cell

namespace Device
variable (D : Device ι Cell Val τ)

def perform (i : ι) : Access Cell Val → τ → τ
  | .load _, b => b
  | .store c v, b => D.write i b c v

def next (i : ι) : Prog Cell Val Fault α → τ → Option (Access Cell Val × Prog Cell Val Fault α)
  | .ret _, _ => none
  | .fault _, _ => none
  | .load c later, b => some (.load c, later (D.read i b c))
  | .store c v later, _ => some (.store c v, later)

def run (i : ι) : Prog Cell Val Fault α → τ → Except Fault (α × τ)
  | .ret a, b => .ok (a, b)
  | .fault e, _ => .error e
  | .load c later, b => run i (later (D.read i b c)) b
  | .store c v later, b => run i later (D.write i b c v)

inductive Step [DecidableEq ι] (C : Clients ι Call Cell Val Fault α τ) :
    Conf ι Call Cell Val Fault α τ → Conf ι Call Cell Val Fault α τ → Prop
  | enter {t} (i : ι) (k : Call) (idle : t.busy i = none) (ok : C.allowed i k) :
      Step C t ⟨t.world.enter C k, Function.update t.busy i (some (k, C.body k))⟩
  | access {t} (i : ι) (k : Call) (p q : Prog Cell Val Fault α) (a : Access Cell Val)
      (inside : t.busy i = some (k, p)) (next : D.next i p t.world.mem = some (a, q)) :
      Step C t ⟨⟨D.perform i a t.world.mem, ⟨i, k, t.world.mem, a⟩ :: t.world.log⟩,
        Function.update t.busy i (some (k, q))⟩
  | leave {t} (i : ι) (k : Call) (r : α) (inside : t.busy i = some (k, .ret r)) :
      Step C t ⟨t.world, Function.update t.busy i none⟩

abbrev Reach [DecidableEq ι] (C : Clients ι Call Cell Val Fault α τ) :=
  Relation.ReflTransGen (D.Step C)

/-- Every party finds in a good cell what the last store to it left, whoever made it. -/
structure Keeps (good : Cell → Prop) : Prop where
  read_write : ∀ i j b c v, good c → D.read j (D.write i b c v) c = v
  read_write_of_ne : ∀ i j b c d v, good c → good d → d ≠ c →
    D.read j (D.write i b c v) d = D.read j b d

def Shows [Memory σ Cell Val] (good : Cell → Prop) (b : τ) (m : σ) : Prop :=
  ∀ i c, good c → D.read i b c = Memory.get m c

variable {D} {good : Cell → Prop}

section programs
variable [Memory σ Cell Val] {b : τ} {m : σ} {i : ι}

theorem Shows.next (shows : D.Shows good b m) {p q : Prog Cell Val Fault α} {a : Access Cell Val}
    (next : p.next m = some (a, q)) (here : good a.cell) : D.next i p b = some (a, q) := by
  cases p with
  | ret r => cases next
  | fault e => cases next
  | load c later =>
    cases next
    rw [Device.next, shows i c here]
  | store c v later => exact next

theorem Shows.perform [ReadsBack σ] (keeps : D.Keeps good) (shows : D.Shows good b m)
    (a : Access Cell Val) (here : good a.cell) : D.Shows good (D.perform i a b) (a.perform m) := by
  cases a with
  | load c => exact shows
  | store c v =>
    intro j d there
    by_cases same : d = c
    · subst same
      exact (keeps.read_write i j b d v here).trans (ReadsBack.get_set_self m d v).symm
    · have below := keeps.read_write_of_ne i j b c d v here there same
      have above := Memory.get_set_of_ne m c d v same
      exact below.trans ((shows j d there).trans above.symm)

theorem Shows.run [ReadsBack σ] (keeps : D.Keeps good) (shows : D.Shows good b m)
    {p : Prog Cell Val Fault α} (only : p.Only fun a => good a.cell) {a : α} {m' : σ}
    (run : p.run m = .ok (a, m')) : ∃ b', D.run i p b = .ok (a, b') ∧ D.Shows good b' m' := by
  induction p generalizing b m with
  | ret r =>
    cases run
    exact ⟨b, rfl, shows⟩
  | fault e => cases run
  | load c later ih =>
    rw [Device.run, shows i c only.1]
    exact ih _ shows (only.2 _) run
  | store c v later ih => exact ih (shows.perform keeps (.store c v) only.1) only.2 run

end programs

/-- The same calls with the same bodies; entering a call keeps what the device shows. -/
structure Same [Memory σ Cell Val] (D : Device ι Cell Val τ) (good : Cell → Prop)
    (A : Clients ι Call Cell Val Fault α τ) (C : Clients ι Call Cell Val Fault α σ) : Prop where
  allowed : A.allowed = C.allowed
  body : A.body = C.body
  prepare : ∀ k b (m : σ), D.Shows good b m → D.Shows good (A.prepare k b) (C.prepare k m)

/-- `t`, on the device, is `s`, on the cells: every party is at the same point of the same
    call, has made the same accesses, and finds the same values. -/
structure Refines [Memory σ Cell Val] (D : Device ι Cell Val τ) (good : Cell → Prop)
    (t : Conf ι Call Cell Val Fault α τ) (s : Conf ι Call Cell Val Fault α σ) : Prop where
  busy : t.busy = s.busy
  shows : D.Shows good t.world.mem s.world.mem
  log : t.world.log.map Event.act = s.world.log.map Event.act

section refinement
variable [Memory σ Cell Val] {A : Clients ι Call Cell Val Fault α τ}
  {C : Clients ι Call Cell Val Fault α σ} {s s' : Conf ι Call Cell Val Fault α σ}
  {t t' : Conf ι Call Cell Val Fault α τ}

theorem Refines.next (refines : Refines D good t s) {i : ι} {p q : Prog Cell Val Fault α}
    {a : Access Cell Val} (next : D.next i p t.world.mem = some (a, q))
    (confined : ∀ a q, p.next s.world.mem = some (a, q) → good a.cell) :
    p.next s.world.mem = some (a, q) := by
  cases p with
  | ret r => cases next
  | fault e => cases next
  | load c later =>
    have here : good c := confined _ _ rfl
    rw [Device.next, refines.shows i c here] at next
    exact next
  | store c v later => exact next

variable [DecidableEq ι]

theorem Refines.enter (same : Same D good A C) (refines : Refines D good t s) (i : ι) (k : Call) :
    Refines D good ⟨t.world.enter A k, Function.update t.busy i (some (k, A.body k))⟩
      ⟨s.world.enter C k, Function.update s.busy i (some (k, C.body k))⟩ := by
  refine ⟨?_, same.prepare k _ _ refines.shows, refines.log⟩
  rw [refines.busy, same.body]

theorem Refines.leave (refines : Refines D good t s) (i : ι) :
    Refines D good ⟨t.world, Function.update t.busy i none⟩
      ⟨s.world, Function.update s.busy i none⟩ := by
  refine ⟨?_, refines.shows, refines.log⟩
  rw [refines.busy]

theorem Refines.access [ReadsBack σ] (keeps : D.Keeps good) (refines : Refines D good t s) (i : ι)
    (k : Call) (q : Prog Cell Val Fault α) (a : Access Cell Val) (here : good a.cell) :
    Refines D good
      ⟨⟨D.perform i a t.world.mem, ⟨i, k, t.world.mem, a⟩ :: t.world.log⟩,
        Function.update t.busy i (some (k, q))⟩
      ⟨s.world.step i k a, Function.update s.busy i (some (k, q))⟩ := by
  refine ⟨?_, refines.shows.perform keeps a here, ?_⟩
  · rw [refines.busy]
  · exact congrArg (List.cons (i, k, a)) refines.log

variable [ReadsBack σ] {b : τ} {m : σ}

theorem step_down (keeps : D.Keeps good) (same : Same D good A C) (confined : Confined good C m)
    (reach : AtomicProgram.Reach C (Conf.start m) s) (refines : Refines D good t s)
    (step : D.Step A t t') : ∃ s', AtomicProgram.Step C s s' ∧ Refines D good t' s' := by
  cases step with
  | enter i k idle ok =>
    rw [refines.busy] at idle
    rw [same.allowed] at ok
    exact ⟨_, .enter i k idle ok, refines.enter same i k⟩
  | access i k p q a inside next =>
    rw [refines.busy] at inside
    have keepsTo := fun a q => confined s reach i k p a q inside
    have next' := refines.next next keepsTo
    exact ⟨_, .access i k p q a inside next', refines.access keeps i k q a (keepsTo a q next')⟩
  | leave i k r inside =>
    rw [refines.busy] at inside
    exact ⟨_, .leave i k r inside, refines.leave i⟩

theorem step_up (keeps : D.Keeps good) (same : Same D good A C) (confined : Confined good C m)
    (reach : AtomicProgram.Reach C (Conf.start m) s) (refines : Refines D good t s)
    (step : AtomicProgram.Step C s s') : ∃ t', D.Step A t t' ∧ Refines D good t' s' := by
  cases step with
  | enter i k idle ok =>
    rw [← refines.busy] at idle
    rw [← same.allowed] at ok
    exact ⟨_, .enter i k idle ok, refines.enter same i k⟩
  | access i k p q a inside next =>
    have here := confined s reach i k p a q inside next
    have next' := refines.shows.next (i := i) next here
    rw [← refines.busy] at inside
    exact ⟨_, .access i k p q a inside next', refines.access keeps i k q a here⟩
  | leave i k r inside =>
    rw [← refines.busy] at inside
    exact ⟨_, .leave i k r inside, refines.leave i⟩

theorem reach_down (keeps : D.Keeps good) (same : Same D good A C) (confined : Confined good C m)
    (shows : D.Shows good b m) (reach : D.Reach A (Conf.start b) t) :
    ∃ s, AtomicProgram.Reach C (Conf.start m) s ∧ Refines D good t s := by
  induction reach with
  | refl => exact ⟨Conf.start m, .refl, rfl, shows, rfl⟩
  | tail _ step ih =>
    obtain ⟨s, reached, refines⟩ := ih
    obtain ⟨s', next, refines'⟩ := step_down keeps same confined reached refines step
    exact ⟨s', reached.tail next, refines'⟩

theorem reach_up (keeps : D.Keeps good) (same : Same D good A C) (confined : Confined good C m)
    (shows : D.Shows good b m) (reach : AtomicProgram.Reach C (Conf.start m) s) :
    ∃ t, D.Reach A (Conf.start b) t ∧ Refines D good t s := by
  induction reach with
  | refl => exact ⟨Conf.start b, .refl, rfl, shows, rfl⟩
  | tail before step ih =>
    obtain ⟨t, reached, refines⟩ := ih
    obtain ⟨t', next, refines'⟩ := step_up keeps same confined before refines step
    exact ⟨t', reached.tail next, refines'⟩

end refinement

end Device

end AtomicProgram
