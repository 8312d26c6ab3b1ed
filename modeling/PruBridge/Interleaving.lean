import PruBridge.AtomicProgram
import Mathlib.Data.Fintype.Defs
import Mathlib.Logic.Relation

/-!
Parties that call programs on one memory, interleaved access by access, and the
rely-guarantee rule for them. Every party executes its own calls one after
another; nothing is assumed about who goes next. The log of a world lists the
accesses of all parties, newest first, each with the memory it found.
-/
namespace AtomicProgram

structure Clients (ι Call Cell : Type) (Val : Cell → Type) (Fault α σ : Type) where
  allowed : ι → Call → Prop
  /-- What the caller writes into its private part of the memory before the call. -/
  prepare : Call → σ → σ
  body : Call → Prog Cell Val Fault α

structure Event (ι Call Cell : Type) (Val : Cell → Type) (σ : Type) where
  party : ι
  call : Call
  before : σ
  access : Access Cell Val

structure World (ι Call Cell : Type) (Val : Cell → Type) (σ : Type) where
  mem : σ
  log : List (Event ι Call Cell Val σ)

variable {ι Call Cell : Type} {Val : Cell → Type} {Fault α β σ : Type}

def World.step [Memory σ Cell Val] (w : World ι Call Cell Val σ) (i : ι) (k : Call)
    (a : Access Cell Val) : World ι Call Cell Val σ :=
  ⟨a.perform w.mem, ⟨i, k, w.mem, a⟩ :: w.log⟩

def World.enter (C : Clients ι Call Cell Val Fault α σ) (w : World ι Call Cell Val σ) (k : Call) :
    World ι Call Cell Val σ :=
  { w with mem := C.prepare k w.mem }

structure Conf (ι Call Cell : Type) (Val : Cell → Type) (Fault α σ : Type) where
  world : World ι Call Cell Val σ
  /-- The call a party is inside of, with what remains of it. -/
  busy : ι → Option (Call × Prog Cell Val Fault α)

def Conf.Quiet (s : Conf ι Call Cell Val Fault α σ) : Prop := ∀ i, s.busy i = none

instance [Fintype ι] (s : Conf ι Call Cell Val Fault α σ) : Decidable s.Quiet :=
  inferInstanceAs (Decidable (∀ i, s.busy i = none))

def Conf.start (m : σ) : Conf ι Call Cell Val Fault α σ := ⟨⟨m, []⟩, fun _ => none⟩

section steps
variable [DecidableEq ι] [Memory σ Cell Val]

inductive Step (C : Clients ι Call Cell Val Fault α σ) :
    Conf ι Call Cell Val Fault α σ → Conf ι Call Cell Val Fault α σ → Prop where
  | enter {s} (i : ι) (k : Call) (idle : s.busy i = none) (ok : C.allowed i k) :
      Step C s ⟨s.world.enter C k, Function.update s.busy i (some (k, C.body k))⟩
  | access {s} (i : ι) (k : Call) (p q : Prog Cell Val Fault α) (a : Access Cell Val)
      (inside : s.busy i = some (k, p)) (next : p.next s.world.mem = some (a, q)) :
      Step C s ⟨s.world.step i k a, Function.update s.busy i (some (k, q))⟩
  | leave {s} (i : ι) (k : Call) (r : α) (inside : s.busy i = some (k, .ret r)) :
      Step C s ⟨s.world, Function.update s.busy i none⟩

abbrev Reach (C : Clients ι Call Cell Val Fault α σ) :=
  Relation.ReflTransGen (Step (ι := ι) C)

/-- Schedules that can be executed: a party enters a call, makes `n` accesses, or leaves. -/
inductive Choice (ι Call : Type) where
  | enter (i : ι) (k : Call)
  | go (i : ι) (n : Nat)
  | leave (i : ι)

def advance (i : ι) : Nat → Conf ι Call Cell Val Fault α σ →
    Option (Conf ι Call Cell Val Fault α σ)
  | 0, s => some s
  | n + 1, s => match s.busy i with
    | none => none
    | some (k, p) => match p.next s.world.mem with
      | none => none
      | some (a, q) =>
        advance i n ⟨s.world.step i k a, Function.update s.busy i (some (k, q))⟩

def choose (C : Clients ι Call Cell Val Fault α σ) :
    Choice ι Call → Conf ι Call Cell Val Fault α σ → Option (Conf ι Call Cell Val Fault α σ)
  | .enter i k, s => match s.busy i with
    | none => some ⟨s.world.enter C k, Function.update s.busy i (some (k, C.body k))⟩
    | some _ => none
  | .go i n, s => advance i n s
  | .leave i, s => match s.busy i with
    | some (_, .ret _) => some ⟨s.world, Function.update s.busy i none⟩
    | _ => none

def schedule (C : Clients ι Call Cell Val Fault α σ) :
    List (Choice ι Call) → Conf ι Call Cell Val Fault α σ →
      Option (Conf ι Call Cell Val Fault α σ)
  | [], s => some s
  | c :: rest, s => (choose C c s).bind (schedule C rest)

theorem advance_reach (C : Clients ι Call Cell Val Fault α σ) {i : ι} {n : Nat}
    {s t : Conf ι Call Cell Val Fault α σ} (done : advance i n s = some t) : Reach C s t := by
  induction n generalizing s with
  | zero => cases done; exact .refl
  | succ n ih =>
    simp only [advance] at done
    split at done
    · cases done
    · rename_i k p inside
      split at done
      · cases done
      · rename_i a q next
        exact .head (.access i k p q a inside next) (ih done)

theorem choose_reach (C : Clients ι Call Cell Val Fault α σ) {c : Choice ι Call}
    {s t : Conf ι Call Cell Val Fault α σ} (ok : ∀ i k, c = .enter i k → C.allowed i k)
    (done : choose C c s = some t) : Reach C s t := by
  cases c with
  | enter i k =>
    simp only [choose] at done
    split at done
    · rename_i idle
      cases done
      exact .single (.enter i k idle (ok i k rfl))
    · cases done
  | go i n => exact advance_reach C done
  | leave i =>
    simp only [choose] at done
    split at done
    · rename_i k r inside
      cases done
      exact .single (.leave i k r inside)
    · cases done

theorem schedule_reach (C : Clients ι Call Cell Val Fault α σ) {cs : List (Choice ι Call)}
    {s t : Conf ι Call Cell Val Fault α σ}
    (ok : ∀ i k, Choice.enter i k ∈ cs → C.allowed i k)
    (done : schedule C cs s = some t) : Reach C s t := by
  induction cs generalizing s with
  | nil => cases done; exact .refl
  | cons c rest ih =>
    simp only [schedule, Option.bind_eq_some_iff] at done
    obtain ⟨mid, first, later⟩ := done
    have ok' : ∀ i k, c = .enter i k → C.allowed i k := by
      intro i k same
      exact ok i k (by simp [same])
    exact (choose_reach C ok' first).trans (ih (fun i k mem => ok i k (by simp [mem])) later)

theorem schedule_finds (C : Clients ι Call Cell Val Fault α σ) {cs : List (Choice ι Call)}
    {s : Conf ι Call Cell Val Fault α σ} (P : Conf ι Call Cell Val Fault α σ → Prop)
    [DecidablePred P] (ok : ∀ i k, Choice.enter i k ∈ cs → C.allowed i k)
    (run : (schedule C cs s).map (fun t => decide (P t)) = some true) :
    ∃ t, Reach C s t ∧ P t := by
  obtain ⟨t, done, fact⟩ := Option.map_eq_some_iff.mp run
  exact ⟨t, schedule_reach C ok done, of_decide_eq_true fact⟩

end steps

/-- What a proof about the parties fixes: an invariant of every world, what holds for a
    party between two of its calls, what a party tolerates from the others, and the
    accesses a call may make. -/
structure Protocol (ι Call Cell : Type) (Val : Cell → Type) (σ : Type) [Memory σ Cell Val] where
  inv : World ι Call Cell Val σ → Prop
  idle : ι → World ι Call Cell Val σ → Prop
  rely : ι → World ι Call Cell Val σ → World ι Call Cell Val σ → Prop
  may : ι → Call → Access Cell Val → World ι Call Cell Val σ → Prop
  rely_refl : ∀ i w, rely i w w
  rely_trans : ∀ i u v w, rely i u v → rely i v w → rely i u w
  idle_stable : ∀ i w w', idle i w → rely i w w' → idle i w'
  load_inv : ∀ i k c w, inv w → inv (w.step i k (.load c))
  load_rely : ∀ i j k c w, j ≠ i → rely j w (w.step i k (.load c))

section rules
variable [Memory σ Cell Val] (P : Protocol ι Call Cell Val σ)

/-- From `w` on, whatever the others do within their promise, the program makes only
    accesses it may make, keeps the invariant and the others' trust, never faults, and
    returns with `Q`. -/
def Safe (i : ι) (k : Call) :
    Prog Cell Val Fault α → (α → World ι Call Cell Val σ → Prop) → World ι Call Cell Val σ → Prop
  | .ret a, Q, w => ∀ w', P.inv w' → P.rely i w w' → Q a w'
  | .fault _, _, _ => False
  | .load c next, Q, w => ∀ w', P.inv w' → P.rely i w w' →
      P.may i k (.load c) w' ∧ Safe i k (next (Memory.get w'.mem c)) Q (w'.step i k (.load c))
  | .store c v next, Q, w => ∀ w', P.inv w' → P.rely i w w' →
      P.may i k (.store c v) w' ∧ P.inv (w'.step i k (.store c v)) ∧
      (∀ j, j ≠ i → P.rely j w' (w'.step i k (.store c v))) ∧
      Safe i k next Q (w'.step i k (.store c v))

variable {P} {i : ι} {k : Call}

theorem Safe.stable {p : Prog Cell Val Fault α} {Q : α → World ι Call Cell Val σ → Prop}
    {w v : World ι Call Cell Val σ} (safe : Safe P i k p Q w) (moved : P.rely i w v) :
    Safe P i k p Q v := by
  cases p with
  | ret a => exact fun w' inv rely => safe w' inv (P.rely_trans _ _ _ _ moved rely)
  | fault e => exact safe
  | load c next => exact fun w' inv rely => safe w' inv (P.rely_trans _ _ _ _ moved rely)
  | store c v next => exact fun w' inv rely => safe w' inv (P.rely_trans _ _ _ _ moved rely)

theorem Safe.bind {p : Prog Cell Val Fault α} {f : α → Prog Cell Val Fault β}
    {Q : α → World ι Call Cell Val σ → Prop} {R : β → World ι Call Cell Val σ → Prop}
    {w : World ι Call Cell Val σ} (inv : P.inv w) (first : Safe P i k p Q w)
    (then_ : ∀ a v, P.inv v → Q a v → Safe P i k (f a) R v) : Safe P i k (p >>= f) R w := by
  induction p generalizing w with
  | ret a => exact then_ a w inv (first w inv (P.rely_refl i w))
  | fault e => exact first.elim
  | load c next ih =>
    intro w' inv' rely
    obtain ⟨may, rest⟩ := first w' inv' rely
    exact ⟨may, ih _ (P.load_inv i k c w' inv') rest⟩
  | store c v next ih =>
    intro w' inv' rely
    obtain ⟨may, inv'', trust, rest⟩ := first w' inv' rely
    exact ⟨may, inv'', trust, ih inv'' rest⟩

theorem Safe.weaken {p : Prog Cell Val Fault α} {Q R : α → World ι Call Cell Val σ → Prop}
    {w : World ι Call Cell Val σ} (safe : Safe P i k p Q w) (weaker : ∀ a v, Q a v → R a v) :
    Safe P i k p R w := by
  induction p generalizing w with
  | ret a => exact fun w' inv rely => weaker a w' (safe w' inv rely)
  | fault e => exact safe
  | load c next ih =>
    intro w' inv rely
    exact ⟨(safe w' inv rely).1, ih _ (safe w' inv rely).2⟩
  | store c v next ih =>
    intro w' inv rely
    obtain ⟨may, inv', trust, rest⟩ := safe w' inv rely
    exact ⟨may, inv', trust, ih rest⟩

theorem Safe.next {p q : Prog Cell Val Fault α} {Q : α → World ι Call Cell Val σ → Prop}
    {w : World ι Call Cell Val σ} {a : Access Cell Val} (safe : Safe P i k p Q w)
    (inv : P.inv w) (next : p.next w.mem = some (a, q)) :
    P.may i k a w ∧ P.inv (w.step i k a) ∧ (∀ j, j ≠ i → P.rely j w (w.step i k a)) ∧
      Safe P i k q Q (w.step i k a) := by
  cases p with
  | ret r => cases next
  | fault e => cases next
  | load c later =>
    cases next
    obtain ⟨may, rest⟩ := safe w inv (P.rely_refl i w)
    exact ⟨may, P.load_inv i k c w inv, fun j other => P.load_rely i j k c w other, rest⟩
  | store c v later =>
    cases next
    exact safe w inv (P.rely_refl i w)

def Stable (P : Protocol ι Call Cell Val σ) (i : ι) (S : World ι Call Cell Val σ → Prop) : Prop :=
  ∀ w v, S w → P.rely i w v → S v

structure Steady (P : Protocol ι Call Cell Val σ) (i : ι) (k : Call)
    (S : World ι Call Cell Val σ → Prop) : Prop where
  stable : Stable P i S
  load : ∀ w c, S w → S (w.step i k (.load c))

def Triple (P : Protocol ι Call Cell Val σ) (i : ι) (k : Call) (S : World ι Call Cell Val σ → Prop)
    (p : Prog Cell Val Fault α) (Q : α → World ι Call Cell Val σ → Prop) : Prop :=
  ∀ w, P.inv w → S w → Safe P i k p Q w

section triples
variable {S T : World ι Call Cell Val σ → Prop} {Q : α → World ι Call Cell Val σ → Prop}

theorem Triple.ret (stable : Stable P i S) {a : α} (post : ∀ w, P.inv w → S w → Q a w) :
    Triple P i k S (.ret a : Prog Cell Val Fault α) Q :=
  fun w _ here w' inv rely => post w' inv (stable w w' here rely)

theorem Triple.load (stable : Stable P i S) {c : Cell} {next : Val c → Prog Cell Val Fault α}
    (known : Val c → Prop) (T : Val c → World ι Call Cell Val σ → Prop)
    (may : ∀ w, P.inv w → S w → P.may i k (.load c) w)
    (found : ∀ w, P.inv w → S w →
      known (Memory.get w.mem c) ∧ T (Memory.get w.mem c) (w.step i k (.load c)))
    (later : ∀ v, known v → Triple P i k (T v) (next v) Q) :
    Triple P i k S (.load c next) Q := by
  intro w _ here w' inv rely
  have now := stable w w' here rely
  obtain ⟨fact, then_⟩ := found w' inv now
  exact ⟨may w' inv now, later _ fact _ (P.load_inv i k c w' inv) then_⟩

theorem Triple.read (steady : Steady P i k S) {c : Cell} {next : Val c → Prog Cell Val Fault α}
    (known : Val c → Prop) (may : ∀ w, P.inv w → S w → P.may i k (.load c) w)
    (found : ∀ w, P.inv w → S w → known (Memory.get w.mem c))
    (later : ∀ v, known v → Triple P i k S (next v) Q) : Triple P i k S (.load c next) Q :=
  Triple.load steady.stable known (fun _ => S) may
    (fun w inv here => ⟨found w inv here, steady.load w c here⟩) later

theorem Triple.skip (steady : Steady P i k S) {c : Cell} {next : Val c → Prog Cell Val Fault α}
    (may : ∀ w, P.inv w → S w → P.may i k (.load c) w) (later : ∀ v, Triple P i k S (next v) Q) :
    Triple P i k S (.load c next) Q :=
  Triple.read steady (fun _ => True) may (fun _ _ _ => trivial) fun v _ => later v

theorem Triple.store (stable : Stable P i S) {c : Cell} {v : Val c} {next : Prog Cell Val Fault α}
    (step : ∀ w, P.inv w → S w → P.may i k (.store c v) w ∧ P.inv (w.step i k (.store c v)) ∧
      (∀ j, j ≠ i → P.rely j w (w.step i k (.store c v))) ∧ T (w.step i k (.store c v)))
    (later : Triple P i k T next Q) : Triple P i k S (.store c v next) Q := by
  intro w _ here w' inv rely
  obtain ⟨may, inv', trust, then_⟩ := step w' inv (stable w w' here rely)
  exact ⟨may, inv', trust, later _ inv' then_⟩

theorem Triple.bind {p : Prog Cell Val Fault α} {f : α → Prog Cell Val Fault β}
    {R : β → World ι Call Cell Val σ → Prop} (first : Triple P i k S p Q)
    (later : ∀ a, Triple P i k (Q a) (f a) R) : Triple P i k S (p >>= f) R :=
  fun w inv here => (first w inv here).bind inv fun a v inv' then_ => later a v inv' then_

theorem Triple.map {p : Prog Cell Val Fault α} {R : β → World ι Call Cell Val σ → Prop} {f : α → β}
    (stable : ∀ a, Stable P i (R (f a))) (body : Triple P i k S p fun a => R (f a)) :
    Triple P i k S (f <$> p) R := by
  rw [map_eq_pure_bind]
  exact body.bind fun a => Triple.ret (stable a) fun _ _ here => here

theorem Triple.weaken {p : Prog Cell Val Fault α} (body : Triple P i k T p Q)
    (pre : ∀ w, P.inv w → S w → T w) : Triple P i k S p Q :=
  fun w inv here => body w inv (pre w inv here)

theorem Triple.strengthen {p : Prog Cell Val Fault α} {R : α → World ι Call Cell Val σ → Prop}
    (body : Triple P i k S p Q) (post : ∀ a w, Q a w → R a w) : Triple P i k S p R :=
  fun w inv here => (body w inv here).weaken post

end triples

def Stands (P : Protocol ι Call Cell Val σ) (i : ι)
    (here : Option (Call × Prog Cell Val Fault α)) (w : World ι Call Cell Val σ) : Prop :=
  match here with
  | none => P.idle i w
  | some (k, p) => Safe P i k p (fun _ => P.idle i) w

theorem Stands.stable {here : Option (Call × Prog Cell Val Fault α)}
    {w v : World ι Call Cell Val σ} (stands : Stands P i here w) (moved : P.rely i w v) :
    Stands P i here v := by
  cases here with
  | none => exact P.idle_stable i w v stands moved
  | some kp => exact Safe.stable stands moved

def Holds (P : Protocol ι Call Cell Val σ) (s : Conf ι Call Cell Val Fault α σ) : Prop :=
  P.inv s.world ∧ ∀ i, Stands P i (s.busy i) s.world

/-- The obligation for one call: entering it is tolerated and its body is safe. -/
def Respects (P : Protocol ι Call Cell Val σ) (C : Clients ι Call Cell Val Fault α σ) : Prop :=
  ∀ i k w, C.allowed i k → P.inv w → P.idle i w →
    P.inv (w.enter C k) ∧ (∀ j, j ≠ i → P.rely j w (w.enter C k)) ∧
      Safe P i k (C.body k) (fun _ => P.idle i) (w.enter C k)

theorem holds_access {s : Conf ι Call Cell Val Fault α σ} (holds : Holds P s)
    {p q : Prog Cell Val Fault α} {a : Access Cell Val} (inside : s.busy i = some (k, p))
    (next : p.next s.world.mem = some (a, q)) : P.may i k a s.world := by
  have safe : Safe P i k p (fun _ => P.idle i) s.world := by
    simpa only [Stands, inside] using holds.2 i
  exact (safe.next holds.1 next).1

theorem holds_rely {s : Conf ι Call Cell Val Fault α σ} (holds : Holds P s)
    {p q : Prog Cell Val Fault α} {a : Access Cell Val} (inside : s.busy i = some (k, p))
    (next : p.next s.world.mem = some (a, q)) {j : ι} (other : j ≠ i) :
    P.rely j s.world (s.world.step i k a) := by
  have safe : Safe P i k p (fun _ => P.idle i) s.world := by
    simpa only [Stands, inside] using holds.2 i
  exact (safe.next holds.1 next).2.2.1 j other

def Protocol.also (P : Protocol ι Call Cell Val σ)
    (extra : ι → Call → Access Cell Val → World ι Call Cell Val σ → Prop) :
    Protocol ι Call Cell Val σ :=
  { P with may := fun i k a w => P.may i k a w ∧ extra i k a w }

section also
variable {extra : ι → Call → Access Cell Val → World ι Call Cell Val σ → Prop}

theorem Safe.also {p : Prog Cell Val Fault α} {Q : α → World ι Call Cell Val σ → Prop}
    {w : World ι Call Cell Val σ} (safe : Safe P i k p Q w)
    (only : p.Only fun a => ∀ w, extra i k a w) : Safe (P.also extra) i k p Q w := by
  induction p generalizing w with
  | ret a => exact safe
  | fault e => exact safe
  | load c next ih =>
    intro w' inv rely
    obtain ⟨may, rest⟩ := safe w' inv rely
    exact ⟨⟨may, only.1 w'⟩, ih _ rest (only.2 _)⟩
  | store c v next ih =>
    intro w' inv rely
    obtain ⟨may, inv', trust, rest⟩ := safe w' inv rely
    exact ⟨⟨may, only.1 w'⟩, inv', trust, ih rest only.2⟩

theorem Safe.drop {p : Prog Cell Val Fault α} {Q : α → World ι Call Cell Val σ → Prop}
    {w : World ι Call Cell Val σ} (safe : Safe (P.also extra) i k p Q w) : Safe P i k p Q w := by
  induction p generalizing w with
  | ret a => exact safe
  | fault e => exact safe
  | load c next ih =>
    intro w' inv rely
    obtain ⟨may, rest⟩ := safe w' inv rely
    exact ⟨may.1, ih _ rest⟩
  | store c v next ih =>
    intro w' inv rely
    obtain ⟨may, inv', trust, rest⟩ := safe w' inv rely
    exact ⟨may.1, inv', trust, ih rest⟩

theorem Stable.also {S : World ι Call Cell Val σ → Prop} (stable : Stable P i S) :
    Stable (P.also extra) i S := stable

theorem Steady.also {S : World ι Call Cell Val σ → Prop} (steady : Steady P i k S) :
    Steady (P.also extra) i k S := ⟨steady.stable, steady.load⟩

theorem Triple.also {S : World ι Call Cell Val σ → Prop} {p : Prog Cell Val Fault α}
    {Q : α → World ι Call Cell Val σ → Prop} (body : Triple P i k S p Q)
    (only : p.Only fun a => ∀ w, extra i k a w) : Triple (P.also extra) i k S p Q :=
  fun w inv here => (body w inv here).also only

theorem Respects.drop {C : Clients ι Call Cell Val Fault α σ}
    (respects : Respects (P.also extra) C) : Respects P C := by
  intro i k w ok inv idle
  obtain ⟨inv', trust, safe⟩ := respects i k w ok inv idle
  exact ⟨inv', trust, safe.drop⟩

end also

variable [DecidableEq ι]

theorem step_holds {C : Clients ι Call Cell Val Fault α σ} (respects : Respects P C)
    {s t : Conf ι Call Cell Val Fault α σ} (step : Step C s t) (holds : Holds P s) :
    Holds P t := by
  obtain ⟨inv, stands⟩ := holds
  cases step with
  | enter i k idle ok =>
    have free : P.idle i s.world := by simpa only [Stands, idle] using stands i
    obtain ⟨inv', trust, safe⟩ := respects i k s.world ok inv free
    refine ⟨inv', fun j => ?_⟩
    by_cases same : j = i
    · subst same
      simpa only [Stands, Function.update_self] using safe
    · simpa only [Function.update_of_ne same] using (stands j).stable (trust j same)
  | access i k p q a inside next =>
    have safe : Safe P i k p (fun _ => P.idle i) s.world := by
      simpa only [Stands, inside] using stands i
    obtain ⟨-, inv', trust, rest⟩ := safe.next inv next
    refine ⟨inv', fun j => ?_⟩
    by_cases same : j = i
    · subst same
      simpa only [Stands, Function.update_self] using rest
    · simpa only [Function.update_of_ne same] using (stands j).stable (trust j same)
  | leave i k r inside =>
    have safe : Safe P i k (.ret r : Prog Cell Val Fault α) (fun _ => P.idle i) s.world := by
      simpa only [Stands, inside] using stands i
    refine ⟨inv, fun j => ?_⟩
    by_cases same : j = i
    · subst same
      simpa only [Stands, Function.update_self] using safe s.world inv (P.rely_refl j _)
    · simpa only [Function.update_of_ne same] using stands j

/-- The rely-guarantee rule: the protocol holds in every reachable configuration. -/
theorem reach_holds {C : Clients ι Call Cell Val Fault α σ} (respects : Respects P C)
    {s t : Conf ι Call Cell Val Fault α σ} (reach : Reach C s t) (holds : Holds P s) :
    Holds P t := by
  induction reach with
  | refl => exact holds
  | tail _ step ih => exact step_holds respects step ih

end rules

end AtomicProgram
