import PruBridge.ControlBlock
import PruBridge.EventRuns
import Mathlib.Data.Finset.Basic
import Mathlib.Data.List.FinRange

/-!
The life of the driver as the kernel sees it: `pru_bridge_probe` and `pru_bridge_remove` step
by step, any number of times, and between two steps the calls of the attribute files that
exist. `ioremap` succeeds: `pru_bridge_probe` does not test for a failure, and its next stores
would go through a null pointer. Of `pruproc_external_request_bind` only its failure is
modelled, and probe and remove are never under way at once.
-/
namespace PruBridge.Lifecycle
open EventRuns

inductive Attr where
  | init
  | write (n : Channel)
  | read (n : Channel)
  deriving DecidableEq

/-- The 21 attribute files, in the order in which `pru_bridge_probe` creates them and
    `pru_bridge_remove` removes them. -/
def attrs : List Attr := .init :: (List.finRange 10).flatMap fun n => [.write n, .read n]

inductive Resource where
  | controlChannel
  | ring
  | dev
  | misc
  | file (a : Attr)
  deriving DecidableEq

/-- Where the driver stands: between two devices, or before the step that is named, or with
    `pru_bridge_probe` returned and `pru_bridge_remove` not yet called. -/
inductive Phase where
  | idle
  | mapRing
  | kzalloc
  | requestBind
  | miscRegister
  | createFile (a : Attr) (rest : List Attr)
  | bound
  | unmapControl
  | removeFile (a : Attr) (rest : List Attr)
  deriving DecidableEq

/-- What a probe acquires carries the number of the probe. The two pointers name the mapping
    that they point at by its number, 0 before the first. -/
structure State where
  phase : Phase
  probes : Nat
  controlChannel : Nat
  ring : Nat
  held : Finset (Nat × Resource)

def start : State := ⟨.idle, 0, 0, 0, ∅⟩

/-- A step of `pru_bridge_probe` succeeds, or the step it is at fails; a step of
    `pru_bridge_remove`; a call of the show or store handler of a file. -/
inductive Event where
  | probe
  | fail
  | remove
  | call (a : Attr)
  deriving DecidableEq

def State.acquire (s : State) (r : Resource) (phase : Phase) : State :=
  { s with held := insert (s.probes, r) s.held, phase := phase }

def State.release (s : State) (x : Nat × Resource) (phase : Phase) : State :=
  { s with held := s.held.erase x, phase := phase }

def creating : List Attr → Phase
  | [] => .bound
  | a :: rest => .createFile a rest

def removing : List Attr → Phase
  | [] => .idle
  | a :: rest => .removeFile a rest

def probeStep (s : State) : Option State :=
  match s.phase with
  | .idle => some { s with
      probes := s.probes + 1
      controlChannel := s.probes + 1
      held := insert (s.probes + 1, .controlChannel) s.held
      phase := .mapRing }
  | .mapRing => some { s.acquire .ring .kzalloc with ring := s.probes }
  | .kzalloc => some (s.acquire .dev .requestBind)
  | .requestBind => some { s with phase := .miscRegister }
  | .miscRegister => some (s.acquire .misc (creating attrs))
  | .createFile a rest => some (s.acquire (.file a) (creating rest))
  | _ => none

/-- `goto fail` and `goto err_fail`: both labels only return. -/
def failStep (s : State) : Option State :=
  match s.phase with
  | .kzalloc => some { s with phase := .idle }
  | .requestBind => some { s with phase := .idle }
  | .miscRegister => some { s with phase := .idle }
  | .createFile _ _ => some { s with phase := .idle }
  | _ => none

def removeStep (s : State) : Option State :=
  match s.phase with
  | .bound => some (s.release (s.ring, .ring) .unmapControl)
  | .unmapControl => some (s.release (s.controlChannel, .controlChannel) (removing attrs))
  | .removeFile a rest => some (s.release (s.probes, .file a) (removing rest))
  | _ => none

def Exists (s : State) (a : Attr) : Prop := ∃ x ∈ s.held, x.2 = .file a

instance (s : State) (a : Attr) : Decidable (Exists s a) :=
  inferInstanceAs (Decidable (∃ x ∈ s.held, x.2 = .file a))

def step (s : State) : Event → Option State
  | .probe => probeStep s
  | .fail => failStep s
  | .remove => removeStep s
  | .call a => if Exists s a then some s else none

def Mapped (s : State) : Prop :=
  (s.controlChannel, .controlChannel) ∈ s.held ∧ (s.ring, .ring) ∈ s.held

def Safe (s : State) : Prop := (∃ a, Exists s a) → Mapped s

theorem exists_acquire (s : State) (r : Resource) (phase : Phase) (a : Attr) :
    Exists (s.acquire r phase) a ↔ r = .file a ∨ Exists s a := by
  simp [Exists, State.acquire]

theorem Mapped.acquire {s : State} (mapped : Mapped s) (r : Resource) (phase : Phase) :
    Mapped (s.acquire r phase) :=
  ⟨Finset.mem_insert_of_mem mapped.1, Finset.mem_insert_of_mem mapped.2⟩

structure Kept (s : State) : Prop where
  control : s.phase ≠ .idle → (s.controlChannel, .controlChannel) ∈ s.held
  ring : s.phase ≠ .idle → s.phase ≠ .mapRing → (s.ring, .ring) ∈ s.held
  safe : Safe s
  bound : s.phase = .bound → ∃ a, Exists s a
  mapping : s.phase ≠ .unmapControl ∧ ∀ a rest, s.phase ≠ .removeFile a rest

theorem Mapped.kept {s : State} (mapped : Mapped s) (bound : s.phase = .bound → ∃ a, Exists s a)
    (mapping : s.phase ≠ .unmapControl ∧ ∀ a rest, s.phase ≠ .removeFile a rest) : Kept s :=
  ⟨fun _ => mapped.1, fun _ _ => mapped.2, fun _ => mapped, bound, mapping⟩

theorem creating_mapping (rest : List Attr) :
    creating rest ≠ .unmapControl ∧ ∀ a others, creating rest ≠ .removeFile a others := by
  cases rest <;> simp [creating]

theorem Kept.mapped {s : State} (kept : Kept s) (busy : s.phase ≠ .idle)
    (later : s.phase ≠ .mapRing) : Mapped s :=
  ⟨kept.control busy, kept.ring busy later⟩

theorem probeStep_kept {s t : State} (kept : Kept s) (next : probeStep s = some t) : Kept t := by
  unfold probeStep at next
  split at next
  case h_1 idle =>
    cases next
    constructor
    · intro _
      exact Finset.mem_insert_self _ _
    · intro _ later
      exact absurd rfl later
    · intro existing
      rcases existing with ⟨a, x, mem, file⟩
      have before : x ∈ s.held := by
        rcases Finset.mem_insert.mp mem with new | old
        · rw [new] at file
          cases file
        · exact old
      exact ⟨Finset.mem_insert_self _ _,
        Finset.mem_insert_of_mem (kept.safe ⟨a, x, before, file⟩).2⟩
    · intro bound
      cases bound
    · simp
  case h_2 here =>
    cases next
    have control := kept.control (by simp [here])
    have mapped : Mapped { s.acquire .ring .kzalloc with ring := s.probes } :=
      ⟨Finset.mem_insert_of_mem control, Finset.mem_insert_self _ _⟩
    exact mapped.kept (by rintro ⟨⟩) (by simp [State.acquire])
  case h_3 here =>
    cases next
    have mapped := kept.mapped (by simp [here]) (by simp [here])
    exact (mapped.acquire _ _).kept (by rintro ⟨⟩) (by simp [State.acquire])
  case h_4 here =>
    cases next
    have mapped := kept.mapped (by simp [here]) (by simp [here])
    exact Mapped.kept mapped (by rintro ⟨⟩) (by simp)
  case h_5 here =>
    cases next
    have mapped := kept.mapped (by simp [here]) (by simp [here])
    exact (mapped.acquire _ _).kept (by rintro ⟨⟩) (creating_mapping attrs)
  case h_6 a rest here =>
    cases next
    have mapped := kept.mapped (by simp [here]) (by simp [here])
    exact (mapped.acquire _ _).kept (fun _ => ⟨a, (exists_acquire s _ _ a).mpr (Or.inl rfl)⟩)
      (creating_mapping rest)
  case h_7 => cases next

theorem failStep_kept {s t : State} (kept : Kept s) (next : failStep s = some t) : Kept t := by
  have stops : s.phase ≠ .idle → s.phase ≠ .mapRing → Kept { s with phase := .idle } := by
    intro busy later
    have mapped := kept.mapped busy later
    exact Mapped.kept mapped (by rintro ⟨⟩) (by simp)
  unfold failStep at next
  split at next
  case h_5 => cases next
  all_goals
    rename_i here
    cases next
    exact stops (by simp [here]) (by simp [here])

theorem removeStep_unsafe {s t : State} (kept : Kept s) (next : removeStep s = some t) :
    ¬ Safe t := by
  unfold removeStep at next
  split at next
  case h_1 here =>
    cases next
    obtain ⟨a, x, mem, file⟩ := kept.bound here
    intro safe
    have other : x ≠ (s.ring, .ring) := by
      rintro rfl
      cases file
    have mapped := safe ⟨a, x, Finset.mem_erase.mpr ⟨other, mem⟩, file⟩
    exact Finset.notMem_erase _ _ mapped.2
  case h_2 here => exact absurd here kept.mapping.1
  case h_3 a rest here => exact absurd here (kept.mapping.2 a rest)
  case h_4 => cases next

theorem call_eq {s t : State} {a : Attr} (next : step s (.call a) = some t) : t = s := by
  simp only [step] at next
  split at next
  · cases next
    rfl
  · cases next

theorem step_kept {s t : State} {e : Event} (other : e ≠ .remove) (kept : Kept s)
    (next : step s e = some t) : Kept t := by
  cases e with
  | probe => exact probeStep_kept kept next
  | fail => exact failStep_kept kept next
  | remove => exact absurd rfl other
  | call a =>
    rw [call_eq next]
    exact kept

theorem start_kept : Kept start := by
  constructor
  · intro busy
    exact absurd rfl busy
  · intro busy
    exact absurd rfl busy
  · intro existing
    rcases existing with ⟨a, x, mem, file⟩
    cases mem
  · intro bound
    cases bound
  · simp [start]

/-- The files of the driver stand over mapped memory in every state of a run exactly if
    `pru_bridge_remove` takes no step in it: its first step unmaps the rings below 21 files. -/
theorem handlers_mapped_iff (es : List Event) (s : State) (ran : run step es start = some s) :
    (∀ x ∈ visited step es start, Safe x) ↔ ∀ e ∈ es, e ≠ .remove := by
  apply visited_safe_iff step_kept Kept.safe _ start_kept ran
  intro s e t removes kept next
  rw [not_ne_iff.mp removes] at next
  exact removeStep_unsafe kept next

/-- Two probes that fail after they have created files, with calls of these. -/
theorem handlers_mapped_failures :
    (∀ x ∈ visited step (List.replicate 7 .probe ++ [.call (.write 0), .fail] ++
        List.replicate 6 .probe ++ [.call .init, .fail]) start, Safe x) ↔
      ∀ e ∈ List.replicate 7 Event.probe ++ [.call (.write 0), .fail] ++
        List.replicate 6 .probe ++ [.call .init, .fail], e ≠ .remove :=
  handlers_mapped_iff _ _ rfl

/-- After the first step of the remove the file `init` can be called, and `ring` is unmapped. -/
theorem call_after_unmap : ∃ s,
    run step (List.replicate 26 .probe ++ [.remove, .call .init]) start = some s ∧
      Exists s .init ∧ ¬ Safe s := by
  refine ⟨_, rfl, by decide, ?_⟩
  intro safe
  have mapped := safe ⟨.init, by decide⟩
  exact absurd mapped.2 (by decide)

/-- Who holds what, and that each probe so far still holds its `pru_bridge_dev` or its mapping
    of the control channel: the first is never freed, the second only by a remove. -/
structure Account (s : State) : Prop where
  numbers : ∀ x ∈ s.held, x.1 ≤ s.probes
  control : s.phase ≠ .idle → s.controlChannel = s.probes
  ring : s.phase ≠ .idle → s.phase ≠ .mapRing → s.ring = s.probes
  dev : s.phase ≠ .idle → s.phase ≠ .mapRing → s.phase ≠ .kzalloc → (s.probes, .dev) ∈ s.held
  owed : ∀ k, 0 < k → k ≤ s.probes → (k, .dev) ∈ s.held ∨ (k, .controlChannel) ∈ s.held

theorem failStep_eq {s t : State} (next : failStep s = some t) :
    s.phase ≠ .idle ∧ t = { s with phase := .idle } := by
  unfold failStep at next
  split at next
  case h_5 => cases next
  all_goals
    rename_i here
    cases next
    exact ⟨by simp [here], rfl⟩

theorem numbers_insert {held : Finset (Nat × Resource)} {n : Nat} (numbers : ∀ x ∈ held, x.1 ≤ n)
    (r : Resource) : ∀ x ∈ insert (n, r) held, x.1 ≤ n := by
  intro x mem
  rcases Finset.mem_insert.mp mem with new | old
  · rw [new]
  · exact numbers x old

section account
variable {s t : State} (account : Account s)
include account

theorem Account.owed_mono (held : s.held ⊆ t.held) (k : Nat) (pos : 0 < k) (le : k ≤ s.probes) :
    (k, .dev) ∈ t.held ∨ (k, .controlChannel) ∈ t.held := by
  rcases account.owed k pos le with dev | control
  · exact Or.inl (held dev)
  · exact Or.inr (held control)

theorem Account.stop : Account { s with phase := .idle } :=
  ⟨account.numbers, fun busy => absurd rfl busy, fun busy => absurd rfl busy,
    fun busy => absurd rfl busy, account.owed⟩

theorem Account.acquire {r : Resource} {phase : Phase} (busy : s.phase ≠ .idle)
    (mapped : s.phase ≠ .mapRing) (dev : r = .dev ∨ s.phase ≠ .kzalloc) :
    Account (s.acquire r phase) := by
  have held : s.held ⊆ (s.acquire r phase).held := Finset.subset_insert _ _
  constructor
  · exact numbers_insert account.numbers r
  · intro _
    exact account.control busy
  · intro _ _
    exact account.ring busy mapped
  · intro _ _ _
    rcases dev with new | later
    · rw [new]
      exact Finset.mem_insert_self _ _
    · exact held (account.dev busy mapped later)
  · exact account.owed_mono held

theorem Account.release {r : Resource} {phase : Phase} (busy : s.phase ≠ .idle)
    (mapped : s.phase ≠ .mapRing) (later : s.phase ≠ .kzalloc) (other : r ≠ .dev) :
    Account (s.release (s.probes, r) phase) := by
  have dev : ∀ k, (k, Resource.dev) ∈ s.held →
      (k, Resource.dev) ∈ (s.release (s.probes, r) phase).held := by
    intro k mem
    apply Finset.mem_erase.mpr ⟨?_, mem⟩
    intro same
    exact other (congrArg Prod.snd same).symm
  have here := dev _ (account.dev busy mapped later)
  constructor
  · intro x mem
    exact account.numbers x (Finset.mem_of_mem_erase mem)
  · intro _
    exact account.control busy
  · intro _ _
    exact account.ring busy mapped
  · intro _ _ _
    exact here
  · intro k pos le
    by_cases last : k = s.probes
    · rw [last]
      exact Or.inl here
    · rcases account.owed k pos le with old | control
      · exact Or.inl (dev k old)
      · apply Or.inr (Finset.mem_erase.mpr ⟨?_, control⟩)
        intro same
        exact last (congrArg Prod.fst same)

theorem probeStep_account (next : probeStep s = some t) : Account t := by
  unfold probeStep at next
  split at next
  case h_1 idle =>
    cases next
    have held : s.held ⊆ insert (s.probes + 1, .controlChannel) s.held := Finset.subset_insert _ _
    have numbers : ∀ x ∈ s.held, x.1 ≤ s.probes + 1 :=
      fun x mem => Nat.le_succ_of_le (account.numbers x mem)
    constructor
    · exact numbers_insert numbers _
    · intro _
      rfl
    · intro _ later
      exact absurd rfl later
    · intro _ later
      exact absurd rfl later
    · intro k pos le
      rcases Nat.le_succ_iff.mp le with before | last
      · exact account.owed_mono held k pos before
      · rw [last]
        exact Or.inr (Finset.mem_insert_self _ _)
  case h_2 here =>
    cases next
    have held : s.held ⊆ insert (s.probes, .ring) s.held := Finset.subset_insert _ _
    constructor
    · exact numbers_insert account.numbers _
    · intro _
      exact account.control (by simp [here])
    · intro _ _
      rfl
    · intro _ _ later
      exact absurd rfl later
    · exact account.owed_mono held
  case h_3 here =>
    cases next
    exact account.acquire (by simp [here]) (by simp [here]) (Or.inl rfl)
  case h_4 here =>
    cases next
    have control := account.control (by simp [here])
    have ring := account.ring (by simp [here]) (by simp [here])
    have dev := account.dev (by simp [here]) (by simp [here]) (by simp [here])
    exact ⟨account.numbers, fun _ => control, fun _ _ => ring, fun _ _ _ => dev, account.owed⟩
  case h_5 here =>
    cases next
    exact account.acquire (by simp [here]) (by simp [here]) (Or.inr (by simp [here]))
  case h_6 a rest here =>
    cases next
    exact account.acquire (by simp [here]) (by simp [here]) (Or.inr (by simp [here]))
  case h_7 => cases next

/-- A step of the remove takes something of the current probe, and not its `pru_bridge_dev`. -/
theorem removeStep_eq (next : removeStep s = some t) :
    s.phase ≠ .idle ∧ s.phase ≠ .mapRing ∧ s.phase ≠ .kzalloc ∧
      ∃ r phase, r ≠ .dev ∧ t = s.release (s.probes, r) phase := by
  unfold removeStep at next
  split at next
  case h_1 here =>
    cases next
    have ring := account.ring (by simp [here]) (by simp [here])
    rw [ring]
    exact ⟨by simp [here], by simp [here], by simp [here], .ring, _, by simp, rfl⟩
  case h_2 here =>
    cases next
    have control := account.control (by simp [here])
    rw [control]
    exact ⟨by simp [here], by simp [here], by simp [here], .controlChannel, _, by simp, rfl⟩
  case h_3 a rest here =>
    cases next
    exact ⟨by simp [here], by simp [here], by simp [here], .file a, _, by simp, rfl⟩
  case h_4 => cases next

theorem step_account {e : Event} (next : step s e = some t) : Account t := by
  cases e with
  | probe => exact probeStep_account account next
  | fail =>
    obtain ⟨-, rfl⟩ := failStep_eq next
    exact account.stop
  | remove =>
    obtain ⟨busy, mapped, later, r, phase, other, rfl⟩ := removeStep_eq account next
    exact account.release busy mapped later other
  | call a =>
    rw [call_eq next]
    exact account

end account

/-- A probe step keeps what is held, and only the first one starts a new probe. -/
theorem probeStep_grows {s t : State} (next : probeStep s = some t) : s.held ⊆ t.held ∧
    (t.probes = s.probes + 1 ∨ t.probes = s.probes ∧ s.phase ≠ .idle) := by
  unfold probeStep at next
  split at next
  case h_1 =>
    cases next
    exact ⟨Finset.subset_insert _ _, Or.inl rfl⟩
  case h_4 here =>
    cases next
    exact ⟨Finset.Subset.refl _, Or.inr ⟨rfl, by simp [here]⟩⟩
  case h_7 => cases next
  all_goals
    rename_i here
    cases next
    exact ⟨Finset.subset_insert _ _, Or.inr ⟨rfl, by simp [here]⟩⟩

/-- What was held when the driver last stood still is still held, and a step that takes place
    since then is one of a later probe or of its remove. -/
structure Since (s₀ s : State) : Prop where
  account : Account s
  kept : s₀.held ⊆ s.held
  probes : s₀.probes ≤ s.probes
  busy : s.phase ≠ .idle → s₀.probes < s.probes

theorem step_since {s₀ s t : State} (numbers : ∀ x ∈ s₀.held, x.1 ≤ s₀.probes)
    (since : Since s₀ s) {e : Event} (next : step s e = some t) : Since s₀ t := by
  have account := step_account since.account next
  have probes := since.probes
  cases e with
  | probe =>
    obtain ⟨held, first | ⟨same, busy⟩⟩ := probeStep_grows next
    · exact ⟨account, since.kept.trans held, by omega, fun _ => by omega⟩
    · have later := since.busy busy
      exact ⟨account, since.kept.trans held, by omega, fun _ => by omega⟩
  | fail =>
    obtain ⟨-, rfl⟩ := failStep_eq next
    exact ⟨account, since.kept, probes, fun busy => absurd rfl busy⟩
  | remove =>
    obtain ⟨busy, -, -, r, phase, -, rfl⟩ := removeStep_eq since.account next
    have later := since.busy busy
    have kept : s₀.held ⊆ (s.release (s.probes, r) phase).held := by
      intro x mem
      apply Finset.mem_erase.mpr ⟨?_, since.kept mem⟩
      rintro rfl
      have old := numbers _ mem
      omega
    exact ⟨account, kept, probes, fun _ => later⟩
  | call a =>
    rw [call_eq next]
    exact since

theorem start_account : Account start := by
  constructor
  · intro x mem
    cases mem
  · intro busy
    exact absurd rfl busy
  · intro busy
    exact absurd rfl busy
  · intro busy
    exact absurd rfl busy
  · intro k pos le
    exact absurd pos (Nat.not_lt.mpr le)

/-- A probe that has begun leaves more held than there was before it, at any time from then on:
    when it has returned an error, and when its remove has returned. -/
theorem never_balanced (es₀ : List Event) (s₀ : State) (before : run step es₀ start = some s₀)
    (idle : s₀.phase = .idle) (es : List Event) (s : State) (later : run step es s₀ = some s)
    (probed : s₀.probes < s.probes) : s.held ≠ s₀.held ∧ s₀.held ⊆ s.held := by
  have account₀ : Account s₀ :=
    run_invariant (fun account next => step_account account next) start_account before
  have here : Since s₀ s₀ :=
    ⟨account₀, Finset.Subset.refl _, Nat.le_refl _, fun busy => absurd idle busy⟩
  have since : Since s₀ s :=
    run_invariant (fun since next => step_since account₀.numbers since next) here later
  refine ⟨?_, since.kept⟩
  intro same
  have owed := since.account.owed (s₀.probes + 1) (Nat.succ_pos _) probed
  rw [same] at owed
  rcases owed with dev | control
  · exact absurd (account₀.numbers _ dev) (Nat.not_succ_le_self _)
  · exact absurd (account₀.numbers _ control) (Nat.not_succ_le_self _)

/-- A first probe for which `kzalloc` finds no memory. -/
theorem never_balanced_no_memory : ∃ s, run step [.probe, .probe, .fail] start = some s ∧
    s.held ≠ start.held ∧ start.held ⊆ s.held :=
  ⟨_, rfl, never_balanced [] start rfl rfl [.probe, .probe, .fail] _ rfl (by decide)⟩

/-- A failed probe leaves both mappings behind, and a probe with its remove leaves the
    `pru_bridge_dev` and the misc device. -/
theorem mappings_and_device_leak :
    (∃ s, run step [.probe, .probe, .fail] start = some s ∧ s.phase = .idle ∧
      s.held = {(1, .controlChannel), (1, .ring)} ∧ s.held ≠ start.held) ∧
    ∃ s, run step (List.replicate 26 .probe ++ List.replicate 23 .remove) start = some s ∧
      s.phase = .idle ∧ s.held = {(1, .dev), (1, .misc)} ∧ s.held ≠ start.held := by
  constructor
  · exact ⟨_, rfl, rfl, by decide, by decide⟩
  · exact ⟨_, rfl, rfl, by decide, by decide⟩

end PruBridge.Lifecycle
