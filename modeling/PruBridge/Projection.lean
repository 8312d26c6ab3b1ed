import PruBridge.Interleaving
import Mathlib.Data.Option.Basic

/-!
Calls that fall into topics, each with cells of its own in the common memory. The calls of one
topic, taken out of an interleaving with all others, are an interleaving again: they make the
same accesses, in the same order, and find the same values.
-/
namespace AtomicProgram

/-- What the calls of a topic look at and what they change in the common memory, and the cells
    that are private to a party. A fresh call finds its private cells as its caller set them. -/
structure Topics (ι Call Cell K : Type) where
  topic : Call → K
  fresh : Call → Prop
  sees : K → Cell → Prop
  changes : K → Cell → Prop
  mine : ι → Cell → Prop
  changes_apart : ∀ κ κ' c, κ ≠ κ' → changes κ c → ¬ sees κ' c
  changes_common : ∀ i κ c, changes κ c → ¬ mine i c
  sees_common : ∀ i κ c, sees κ c → ¬ mine i c
  mine_apart : ∀ i j c, i ≠ j → mine i c → ¬ mine j c

variable {ι Call Cell : Type} {Val : Cell → Type} {Fault α σ K : Type}

def Topics.Within (T : Topics ι Call Cell K) (i : ι) (k : Call) : Access Cell Val → Prop
  | .load c => T.sees (T.topic k) c ∨ (T.mine i c ∧ T.fresh k)
  | .store c _ => T.changes (T.topic k) c ∨ T.mine i c

def Clients.on (C : Clients ι Call Cell Val Fault α σ) (T : Topics ι Call Cell K) (κ : K) :
    Clients ι Call Cell Val Fault α σ :=
  { C with allowed := fun i k => C.allowed i k ∧ T.topic k = κ }

/-- Entering a call changes private cells of the caller, and all that a fresh call looks at. -/
structure Topics.Enters [Memory σ Cell Val] (T : Topics ι Call Cell K)
    (C : Clients ι Call Cell Val Fault α σ) : Prop where
  others : ∀ i k (m : σ) c, C.allowed i k → ¬ T.mine i c →
    Memory.get (C.prepare k m) c = Memory.get m c
  fresh : ∀ i k (m m' : σ) c, C.allowed i k → T.fresh k → T.mine i c →
    Memory.get (C.prepare k m) c = Memory.get (C.prepare k m') c

/-- An entry of the log without the memory that it found. -/
def Event.act (e : Event ι Call Cell Val σ) : ι × Call × Access Cell Val :=
  (e.party, e.call, e.access)

section busy
variable [DecidableEq K] {T : Topics ι Call Cell K} {κ : K}

def Topics.only (T : Topics ι Call Cell K) (κ : K) :
    Option (Call × Prog Cell Val Fault α) → Option (Call × Prog Cell Val Fault α) :=
  Option.filter fun here => T.topic here.1 = κ

theorem only_some {k : Call} {p : Prog Cell Val Fault α} (here : T.topic k = κ) :
    T.only κ (some (k, p)) = some (k, p) := by
  simp [Topics.only, here]

theorem only_other {k : Call} {p : Prog Cell Val Fault α} (other : T.topic k ≠ κ) :
    T.only κ (some (k, p)) = none := by
  simp [Topics.only, other]

variable [DecidableEq ι] {s t : Conf ι Call Cell Val Fault α σ} {i : ι}
  {here : Option (Call × Prog Cell Val Fault α)}

theorem busy_update (i : ι) (here : Option (Call × Prog Cell Val Fault α))
    (busy : ∀ j, t.busy j = T.only κ (s.busy j)) (j : ι) :
    Function.update t.busy i (T.only κ here) j = T.only κ (Function.update s.busy i here j) := by
  by_cases same : j = i
  · subst same
    rw [Function.update_self, Function.update_self]
  · rw [Function.update_of_ne same, Function.update_of_ne same]
    exact busy j

theorem busy_idle (busy : ∀ j, t.busy j = T.only κ (s.busy j))
    (idle : t.busy i = T.only κ here) (j : ι) :
    t.busy j = T.only κ (Function.update s.busy i here j) := by
  by_cases same : j = i
  · subst same
    rw [Function.update_self, idle]
  · rw [Function.update_of_ne same]
    exact busy j

end busy

theorem inside_of_update [DecidableEq ι] {β : Type} {busy : ι → Option β} {i j : ι}
    {here : Option β} {b : β} (inside : Function.update busy i here j = some b) :
    j = i ∧ here = some b ∨ j ≠ i ∧ busy j = some b := by
  by_cases same : j = i
  · subst same
    rw [Function.update_self] at inside
    exact Or.inl ⟨rfl, inside⟩
  · rw [Function.update_of_ne same] at inside
    exact Or.inr ⟨same, inside⟩

section accesses
variable [Memory σ Cell Val]

theorem Prog.Only.next {may : Access Cell Val → Prop} {p q : Prog Cell Val Fault α} {m : σ}
    {a : Access Cell Val} (only : p.Only may) (next : p.next m = some (a, q)) :
    may a ∧ q.Only may := by
  cases p with
  | ret r => cases next
  | fault e => cases next
  | load c later =>
    cases next
    exact ⟨only.1, only.2 _⟩
  | store c v later =>
    cases next
    exact only

theorem reach_inside [DecidableEq ι] {C : Clients ι Call Cell Val Fault α σ} {m : σ}
    {s : Conf ι Call Cell Val Fault α σ} (reach : Reach C (Conf.start m) s) {i : ι} {k : Call}
    {p : Prog Cell Val Fault α} (inside : s.busy i = some (k, p)) :
    C.allowed i k ∧ ∀ may : Access Cell Val → Prop, (C.body k).Only may → p.Only may := by
  induction reach generalizing i k p with
  | refl => cases inside
  | tail _ step ih =>
    cases step with
    | enter j k' idle ok =>
      rcases inside_of_update inside with ⟨rfl, here⟩ | ⟨-, before⟩
      · cases here
        exact ⟨ok, fun _ only => only⟩
      · exact ih before
    | access j k' p' q a within next =>
      rcases inside_of_update inside with ⟨rfl, here⟩ | ⟨-, before⟩
      · cases here
        obtain ⟨ok, kept⟩ := ih within
        exact ⟨ok, fun may only => ((kept may only).next next).2⟩
      · exact ih before
    | leave j k' r within =>
      rcases inside_of_update inside with ⟨-, here⟩ | ⟨-, before⟩
      · cases here
      · exact ih before

theorem next_same {p q : Prog Cell Val Fault α} {a : Access Cell Val} {m m' : σ}
    (next : p.next m = some (a, q))
    (same : ∀ c, a = .load c → Memory.get m' c = Memory.get m c) : p.next m' = some (a, q) := by
  cases p with
  | ret r => cases next
  | fault e => cases next
  | load c later =>
    cases next
    rw [Prog.next, same c rfl]
  | store c v later => exact next

theorem perform_other {a : Access Cell Val} {d : Cell} (m : σ)
    (other : ∀ c v, a = .store c v → d ≠ c) : Memory.get (a.perform m) d = Memory.get m d := by
  cases a with
  | load c => rfl
  | store c v => exact Memory.get_set_of_ne m c d v (other c v rfl)

theorem perform_same [ReadsBack σ] (a : Access Cell Val) {m m' : σ} {d : Cell}
    (same : Memory.get m' d = Memory.get m d) :
    Memory.get (a.perform m') d = Memory.get (a.perform m) d := by
  cases a with
  | load c => exact same
  | store c v =>
    by_cases here : d = c
    · subst here
      exact (ReadsBack.get_set_self m' d v).trans (ReadsBack.get_set_self m d v).symm
    · have apart := fun m : σ => Memory.get_set_of_ne m c d v here
      exact (apart m').trans (same.trans (apart m).symm)

end accesses

section projection
variable [DecidableEq K] [Memory σ Cell Val]

/-- `t` is what the calls of one topic make of `s`. -/
structure Projects (T : Topics ι Call Cell K) (κ : K) (s t : Conf ι Call Cell Val Fault α σ) :
    Prop where
  busy : ∀ i, t.busy i = T.only κ (s.busy i)
  common : ∀ c, T.sees κ c → Memory.get t.world.mem c = Memory.get s.world.mem c
  mine : ∀ i k p, s.busy i = some (k, p) → T.topic k = κ → T.fresh k → ∀ c, T.mine i c →
    Memory.get t.world.mem c = Memory.get s.world.mem c
  log : t.world.log.map Event.act =
    (s.world.log.filter fun e => T.topic e.call = κ).map Event.act

variable [DecidableEq ι] {C : Clients ι Call Cell Val Fault α σ} {T : Topics ι Call Cell K} {κ : K}
  {s t : Conf ι Call Cell Val Fault α σ} {i : ι} {k : Call}

/-- The private cells agree after a step of party `i` when they agreed before, and do so for
    `i` itself when it is inside a fresh call. -/
theorem Projects.mine_step (projects : Projects T κ s t) {m m' : σ}
    {here : Option (Call × Prog Cell Val Fault α)}
    (own : ∀ k p, here = some (k, p) → T.topic k = κ → T.fresh k → ∀ c, T.mine i c →
      Memory.get m' c = Memory.get m c)
    (others : ∀ j c, j ≠ i → T.mine j c → Memory.get t.world.mem c = Memory.get s.world.mem c →
      Memory.get m' c = Memory.get m c) (j : ι) (k : Call) (p : Prog Cell Val Fault α)
    (inside : Function.update s.busy i here j = some (k, p)) (topic : T.topic k = κ)
    (fresh : T.fresh k) (c : Cell) (mine : T.mine j c) : Memory.get m' c = Memory.get m c := by
  rcases inside_of_update inside with ⟨rfl, here⟩ | ⟨other, before⟩
  · exact own k p here topic fresh c mine
  · exact others j c other mine (projects.mine j k p before topic fresh c mine)

theorem Projects.enter (enters : T.Enters C) (projects : Projects T κ s t)
    (idle : s.busy i = none) (ok : C.allowed i k) :
    ∃ t', Reach (C.on T κ) t t' ∧
      Projects T κ ⟨s.world.enter C k, Function.update s.busy i (some (k, C.body k))⟩ t' := by
  have idle' : t.busy i = none := by
    rw [projects.busy, idle]
    rfl
  have kept : ∀ (m : σ) c, ¬ T.mine i c → Memory.get (C.prepare k m) c = Memory.get m c :=
    fun m c other => enters.others i k m c ok other
  by_cases here : T.topic k = κ
  · refine ⟨_, .single (.enter i k idle' ⟨ok, here⟩), ?_, ?_, ?_, projects.log⟩
    · intro j
      have next := busy_update i (some (k, C.body k)) projects.busy j
      rwa [only_some here] at next
    · intro c sees
      have common := T.sees_common i κ c sees
      exact (kept _ c common).trans ((projects.common c sees).trans (kept _ c common).symm)
    · apply projects.mine_step
      · intro k' p same _ fresh c mine
        cases same
        exact enters.fresh i k _ _ c ok fresh mine
      · intro j c other mine before
        have apart := T.mine_apart j i c other mine
        exact (kept _ c apart).trans (before.trans (kept _ c apart).symm)
  · have away := busy_idle projects.busy (idle'.trans (only_other (p := C.body k) here).symm)
    refine ⟨t, .refl, away, ?_, ?_, projects.log⟩
    · intro c sees
      have common := T.sees_common i κ c sees
      exact (projects.common c sees).trans (kept _ c common).symm
    · apply projects.mine_step
      · intro k' p same topic
        cases same
        exact absurd topic here
      · intro j c other mine before
        have apart := T.mine_apart j i c other mine
        exact before.trans (kept _ c apart).symm

theorem Projects.access [ReadsBack σ] (projects : Projects T κ s t)
    {p q : Prog Cell Val Fault α} {a : Access Cell Val}
    (inside : s.busy i = some (k, p)) (next : p.next s.world.mem = some (a, q))
    (within : T.Within i k a) :
    ∃ t', Reach (C.on T κ) t t' ∧
      Projects T κ ⟨s.world.step i k a, Function.update s.busy i (some (k, q))⟩ t' := by
  by_cases here : T.topic k = κ
  · have inside' : t.busy i = some (k, p) := by
      rw [projects.busy, inside]
      exact only_some here
    have next' : p.next t.world.mem = some (a, q) := by
      apply next_same next
      rintro c rfl
      rcases within with sees | ⟨mine, fresh⟩
      · rw [here] at sees
        exact projects.common c sees
      · exact projects.mine i k p inside here fresh c mine
    refine ⟨_, .single (.access i k p q a inside' next'), ?_, ?_, ?_, ?_⟩
    · intro j
      have next := busy_update i (some (k, q)) projects.busy j
      rwa [only_some here] at next
    · intro c sees
      exact perform_same a (projects.common c sees)
    · apply projects.mine_step
      · intro k' p' same topic fresh c mine
        cases same
        exact perform_same a (projects.mine i k p inside topic fresh c mine)
      · intro j c _ _ before
        exact perform_same a before
    · simp only [World.step, List.map_cons, here, decide_true, List.filter_cons_of_pos,
        projects.log, Event.act]
  · have idle' : t.busy i = T.only κ (some (k, q)) := by
      rw [projects.busy, inside, only_other here, only_other here]
    refine ⟨t, .refl, busy_idle projects.busy idle', ?_, ?_, ?_⟩
    · intro c sees
      have kept : Memory.get (a.perform s.world.mem) c = Memory.get s.world.mem c := by
        apply perform_other
        rintro d v rfl rfl
        rcases within with changes | mine
        · exact T.changes_apart _ κ c here changes sees
        · exact T.sees_common i κ c sees mine
      exact (projects.common c sees).trans kept.symm
    · apply projects.mine_step
      · intro k' p' same topic
        cases same
        exact absurd topic here
      · intro j c other mine before
        have kept : Memory.get (a.perform s.world.mem) c = Memory.get s.world.mem c := by
          apply perform_other
          rintro d v rfl rfl
          rcases within with changes | own
          · exact T.changes_common j _ c changes mine
          · exact T.mine_apart j i c other mine own
        exact before.trans kept.symm
    · simp only [World.step, here, decide_false, Bool.false_eq_true, not_false_eq_true,
        List.filter_cons_of_neg, projects.log]

theorem Projects.leave (projects : Projects T κ s t) {r : α}
    (inside : s.busy i = some (k, .ret r)) :
    ∃ t', Reach (C.on T κ) t t' ∧ Projects T κ ⟨s.world, Function.update s.busy i none⟩ t' := by
  have gone : ∀ k' p, (none : Option (Call × Prog Cell Val Fault α)) = some (k', p) →
      T.topic k' = κ → T.fresh k' → ∀ c, T.mine i c →
        Memory.get t.world.mem c = Memory.get s.world.mem c := by
    intro k' p same
    cases same
  have rest := projects.mine_step gone fun _ _ _ _ before => before
  by_cases here : T.topic k = κ
  · have inside' : t.busy i = some (k, .ret r) := by
      rw [projects.busy, inside]
      exact only_some here
    refine ⟨_, .single (.leave i k r inside'), ?_, projects.common, rest, projects.log⟩
    exact busy_update i none projects.busy
  · have idle' : t.busy i = T.only κ none := by
      rw [projects.busy, inside, only_other here]
      rfl
    exact ⟨t, .refl, busy_idle projects.busy idle', projects.common, rest, projects.log⟩

/-- The calls of one topic, taken out of a run in which every call keeps to its topic, are a
    run of their own. -/
theorem projected [ReadsBack σ] (enters : T.Enters C) (κ : K) {m : σ}
    (within : ∀ s : Conf ι Call Cell Val Fault α σ, Reach C (Conf.start m) s → ∀ i k p a q,
      s.busy i = some (k, p) → p.next s.world.mem = some (a, q) → T.Within i k a)
    {s : Conf ι Call Cell Val Fault α σ} (reach : Reach C (Conf.start m) s) :
    ∃ t, Reach (C.on T κ) (Conf.start m) t ∧ Projects T κ s t := by
  induction reach with
  | refl =>
    refine ⟨Conf.start m, .refl, fun _ => rfl, fun _ _ => rfl, ?_, rfl⟩
    intro i k p inside
    cases inside
  | @tail u v before step ih =>
    obtain ⟨t, reached, projects⟩ := ih
    have next : ∃ t', Reach (C.on T κ) t t' ∧ Projects T κ v t' := by
      cases step with
      | enter i k idle ok => exact projects.enter enters idle ok
      | access i k p q a inside next =>
        exact projects.access inside next (within _ before i k p a q inside next)
      | leave i k r inside => exact projects.leave inside
    obtain ⟨t', more, projects'⟩ := next
    exact ⟨t', reached.trans more, projects'⟩

end projection

end AtomicProgram
