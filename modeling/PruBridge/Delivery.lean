import PruBridge.PartyCalls

/-!
The bytes that go through a channel while the parties run at the same time. The tail follows
the bytes stored, the head the bytes removed, and the last bytes stored lie in the ring in
their order; a second protocol, beside the one of the counters, carries this through every
interleaving.
-/
namespace PruBridge
open AtomicProgram MachineWords

/-- The places a write frees for its next byte: each store of the tail is one. -/
def advancedBy (p : Side) (d : Channel) (e : Entry) : Nat :=
  match e.access with
  | .store (.tail _) _ => if e.party = p ∧ e.call.IsWrite ∧ e.call.channel = d then 1 else 0
  | _ => 0

/-- The bytes the writes of `p` have stored to channel `d`, oldest first. -/
def storedList (p : Side) (d : Channel) : List Entry → List UInt8
  | [] => []
  | e :: log => match e.access with
    | .store (.data _) v =>
      if e.party = p ∧ e.call.IsWrite ∧ e.call.channel = d then storedList p d log ++ [v]
      else storedList p d log
    | _ => storedList p d log

/-- A read of `p` takes a byte off channel `d`. The load that a driver read makes for its
    message comes after the byte is counted out, and takes nothing. -/
def Takes (p : Side) (d : Channel) (e : Entry) (log : List Entry) : Prop :=
  e.party = p ∧ ¬ e.call.IsWrite ∧ e.call.channel = d ∧
    total (releasedBy p d) log ≤ total (removedBy p d) log

instance (p : Side) (d : Channel) (e : Entry) (log : List Entry) : Decidable (Takes p d e log) :=
  inferInstanceAs (Decidable (_ ∧ _))

def takenList (p : Side) (d : Channel) : List Entry → List UInt8
  | [] => []
  | e :: log => match e.access with
    | .load (.data x) =>
      if Takes p d e log then takenList p d log ++ [e.before.data x] else takenList p d log
    | _ => takenList p d log

theorem storedBy_le (p : Side) (d : Channel) (e : Entry) : storedBy p d e ≤ 1 := by
  unfold storedBy
  split
  · split
    · exact Nat.le_refl 1
    · exact Nat.zero_le 1
  · exact Nat.zero_le 1

theorem storedBy_party {p : Side} {d : Channel} {e : Entry} (some : storedBy p d e ≠ 0) :
    e.party = p := by
  unfold storedBy at some
  split at some
  · by_contra other
    exact some (if_neg fun mine => other mine.1)
  · exact absurd rfl some

theorem storedList_length (p : Side) (d : Channel) (log : List Entry) :
    (storedList p d log).length = total (storedBy p d) log := by
  induction log with
  | nil => rfl
  | cons e log ih =>
    obtain ⟨q, k, m, a⟩ := e
    rw [total_cons, ← ih]
    cases a with
    | load c => exact (Nat.zero_add _).symm
    | store c v => cases c with
      | data x =>
        simp only [storedList, storedBy]
        split
        · rw [List.length_append]
          exact Nat.add_comm _ _
        · exact (Nat.zero_add _).symm
      | _ => exact (Nat.zero_add _).symm

/-- What the other protocol says of a log: at each entry the counter is exact, no more bytes
    are counted than stored, and nobody but the reader lowers the counter. -/
def Sound (ρ : Roles) (d : Channel) : List Entry → Prop
  | [] => True
  | e :: log =>
    (e.before.indexData d).toNat + total (releasedBy (ρ.reader d) d) log =
      total (countedBy (ρ.writer d) d) log ∧
    total (countedBy (ρ.writer d) d) log ≤ total (storedBy (ρ.writer d) d) log ∧
    (e.party ≠ ρ.reader d → e.before.indexData d ≤ (e.access.perform e.before).indexData d) ∧
    Sound ρ d log

theorem sound_append {ρ : Roles} {d : Channel} {new log : List Entry}
    (sound : Sound ρ d (new ++ log)) : Sound ρ d log := by
  induction new with
  | nil => exact sound
  | cons e new ih => exact ih sound.2.2.2

theorem stored_le {ρ : Roles} {size : Channel → UInt32} {d : Channel} {log : List Entry}
    (room : FindsRoom size d log) (sound : Sound ρ d log) :
    total (storedBy (ρ.writer d) d) log ≤
      total (releasedBy (ρ.reader d) d) log + (size d).toNat := by
  induction log with
  | nil => exact Nat.zero_le _
  | cons e log ih =>
    obtain ⟨found, roomy⟩ := room
    obtain ⟨exact_, counted, -, sounds⟩ := sound
    have before := ih roomy sounds
    rw [total_cons, total_cons]
    by_cases none : storedBy (ρ.writer d) d e = 0
    · omega
    · have one := storedBy_le (ρ.writer d) d e
      rw [storedBy_party none] at found
      have free := found none
      omega

/-- What the log says of the calls of a party on a channel. -/
structure Tally where
  stored : Nat
  counted : Nat
  advanced : Nat
  removed : Nat
  released : Nat
  taken : Nat

def tally (p : Side) (d : Channel) (log : List Entry) : Tally where
  stored := total (storedBy p d) log
  counted := total (countedBy p d) log
  advanced := total (advancedBy p d) log
  removed := total (removedBy p d) log
  released := total (releasedBy p d) log
  taken := (takenList p d log).length

structure Tally.Even (t : Tally) : Prop where
  counted : t.counted ≤ t.stored
  advanced : t.stored = t.advanced
  removed : t.removed = t.released
  taken : t.taken = t.removed

section own
variable {p : Side} {d : Channel} {e : Entry} {log : List Entry}
  (other : e.party ≠ p ∨ e.call.channel ≠ d)
include other

theorem not_own (q : Prop) : ¬ (e.party = p ∧ q ∧ e.call.channel = d) := by
  rintro ⟨mine, -, here⟩
  exact other.elim (fun away => away mine) (fun away => away here)

theorem storedList_of_other : storedList p d (e :: log) = storedList p d log := by
  rw [storedList]
  split
  · exact if_neg (not_own other _)
  · rfl

theorem takenList_of_other : takenList p d (e :: log) = takenList p d log := by
  rw [takenList]
  split
  · apply if_neg
    rintro ⟨mine, -, here, -⟩
    exact other.elim (fun away => away mine) (fun away => away here)
  · rfl

theorem tally_of_other : tally p d (e :: log) = tally p d log := by
  have none := not_own other
  simp only [tally, takenList_of_other other, total_cons, storedBy, countedBy, advancedBy,
    removedBy, releasedBy, Tally.mk.injEq, and_true]
  refine ⟨?_, ?_, ?_, ?_, ?_⟩ <;> split <;> simp only [none, ↓reduceIte, Nat.zero_add]

end own

theorem tally_append {p : Side} {d : Channel} {new log : List Entry}
    (others : ∀ e ∈ new, e.party ≠ p) : tally p d (new ++ log) = tally p d log := by
  induction new with
  | nil => rfl
  | cons e new ih =>
    have first : e.party ≠ p := others e List.mem_cons_self
    rw [List.cons_append, tally_of_other (Or.inl first)]
    exact ih fun f mem => others f (List.mem_cons_of_mem e mem)

section entries
variable {p : Side} {k : Op} {d : Channel} {m : Ram} {log : List Entry}

theorem tally_load {c : Cell} (plain : ∀ x, c ≠ .data x) :
    tally p d (⟨p, k, m, .load c⟩ :: log) = tally p d log := by
  cases c with
  | data x => exact absurd rfl (plain x)
  | _ => simp [tally, storedBy, countedBy, advancedBy, removedBy, releasedBy, takenList]

theorem tally_data_load (log : List Entry) (x : UInt32) :
    tally p d (⟨p, k, m, .load (.data x)⟩ :: log) =
    { tally p d log with
      taken := (tally p d log).taken +
        if Takes p d ⟨p, k, m, .load (.data x)⟩ log then 1 else 0 } := by
  simp only [tally, total_cons, storedBy, countedBy, advancedBy, removedBy, releasedBy, takenList,
    Nat.zero_add]
  split
  · rw [List.length_append, List.length_singleton]
  · rfl

theorem tally_pruData (i : Nat) (v : UInt8) :
    tally p d (⟨p, k, m, .store (.pruData i) v⟩ :: log) = tally p d log := by
  simp [tally, storedBy, countedBy, advancedBy, removedBy, releasedBy, takenList]

theorem tally_data (here : k.channel = d) (write : k.IsWrite) (x : UInt32) (v : UInt8) :
    tally p d (⟨p, k, m, .store (.data x) v⟩ :: log) =
      { tally p d log with stored := 1 + (tally p d log).stored } := by
  simp [tally, storedBy, countedBy, advancedBy, removedBy, releasedBy, takenList, here, write]

theorem tally_tail (here : k.channel = d) (write : k.IsWrite) (v : UInt32) :
    tally p d (⟨p, k, m, .store (.tail d) v⟩ :: log) =
      { tally p d log with advanced := 1 + (tally p d log).advanced } := by
  simp [tally, storedBy, countedBy, advancedBy, removedBy, releasedBy, takenList, here, write]

theorem tally_head (here : k.channel = d) (read : ¬ k.IsWrite) (v : UInt32) :
    tally p d (⟨p, k, m, .store (.head d) v⟩ :: log) =
      { tally p d log with removed := 1 + (tally p d log).removed } := by
  simp [tally, storedBy, countedBy, advancedBy, removedBy, releasedBy, takenList, here, read]

theorem tally_count_in (here : k.channel = d) (write : k.IsWrite) (v : UInt32) :
    tally p d (⟨p, k, m, .store (.indexData d) v⟩ :: log) =
      { tally p d log with counted := k.writes + (tally p d log).counted } := by
  simp [tally, storedBy, countedBy, advancedBy, removedBy, releasedBy, takenList, here, write]

theorem tally_count_out (here : k.channel = d) (read : ¬ k.IsWrite) (v : UInt32) :
    tally p d (⟨p, k, m, .store (.indexData d) v⟩ :: log) =
      { tally p d log with released := k.reads + (tally p d log).released } := by
  simp [tally, storedBy, countedBy, advancedBy, removedBy, releasedBy, takenList, here, read]

end entries

/-- The ring of every channel in use, as the log of its bytes says. -/
structure Rings (ρ : Roles) (size start : Channel → UInt32) (m : Ram) (log : List Entry) :
    Prop where
  sizes : m.channelSize = size
  starts : m.bufferStart = start
  tail : ∀ d, ρ.uses d →
    (m.tail d).toNat = total (advancedBy (ρ.writer d) d) log % (size d).toNat
  head : ∀ d, ρ.uses d →
    (m.head d).toNat = total (removedBy (ρ.reader d) d) log % (size d).toNat
  cells : ∀ d, ρ.uses d → ∀ j b, (storedList (ρ.writer d) d log)[j]? = some b →
    (storedList (ρ.writer d) d log).length ≤ j + (size d).toNat →
    m.data (start d + UInt32.ofNat (j % (size d).toNat)) = b
  counted : ∀ d, ρ.uses d →
    total (countedBy (ρ.writer d) d) log ≤ total (storedBy (ρ.writer d) d) log

/-- What a party can count on: only the writer of a channel moves its tail, only the reader
    its head, and while the log is sound nobody else lowers the counter of a reader. -/
structure Trust (ρ : Roles) (p : Side) (w w' : Shared) : Prop where
  log : ∃ new, w'.log = new ++ w.log ∧ ∀ e ∈ new, e.party ≠ p
  tail : ∀ d, ρ.uses d → ρ.writer d = p → w'.mem.tail d = w.mem.tail d
  head : ∀ d, ρ.uses d → ρ.reader d = p → w'.mem.head d = w.mem.head d
  raises : ∀ d, ρ.uses d → ρ.reader d = p → Sound ρ d w'.log →
    w.mem.indexData d ≤ w'.mem.indexData d

theorem Trust.refl (ρ : Roles) (p : Side) (w : Shared) : Trust ρ p w w where
  log := ⟨[], rfl, by simp⟩
  tail _ _ _ := rfl
  head _ _ _ := rfl
  raises _ _ _ _ := UInt32.le_refl _

theorem Trust.trans {ρ : Roles} {p : Side} {u v w : Shared} (first : Trust ρ p u v)
    (second : Trust ρ p v w) : Trust ρ p u w where
  log := by
    obtain ⟨new, eq, others⟩ := first.log
    obtain ⟨new', eq', others'⟩ := second.log
    refine ⟨new' ++ new, by rw [eq', eq, List.append_assoc], fun e mem => ?_⟩
    rcases List.mem_append.mp mem with later | before
    · exact others' e later
    · exact others e before
  tail d used role := (second.tail d used role).trans (first.tail d used role)
  head d used role := (second.head d used role).trans (first.head d used role)
  raises d used role sound := by
    obtain ⟨new, eq, -⟩ := second.log
    have before : Sound ρ d v.log := by
      rw [eq] at sound
      exact sound_append sound
    exact UInt32.le_trans (first.raises d used role before) (second.raises d used role sound)

/-- The bytes a party loads to take them off a channel are the next ones in the order in which
    they were stored, where the counters can be trusted. -/
def TakesNext (ρ : Roles) (size : Channel → UInt32) (p : Side) (k : Op) (x : UInt32)
    (w : Shared) : Prop :=
  ¬ k.IsWrite → total (releasedBy p k.channel) w.log ≤ total (removedBy p k.channel) w.log →
    (takenList p k.channel w.log).length = total (removedBy p k.channel) w.log ∧
    (FindsRoom size k.channel w.log → Sound ρ k.channel w.log →
      (w.mem.indexData k.channel).toNat + total (releasedBy p k.channel) w.log =
        total (countedBy (ρ.writer k.channel) k.channel) w.log →
      (storedList (ρ.writer k.channel) k.channel w.log)[total (removedBy p k.channel) w.log]? =
        some (w.mem.data x))

theorem Trust.tally {ρ : Roles} {p : Side} {w v : Shared} (moved : Trust ρ p w v) (d : Channel) :
    tally p d v.log = tally p d w.log := by
  obtain ⟨new, eq, others⟩ := moved.log
  rw [eq]
  exact tally_append others

/-- A step is tolerated by the other party when it moves tails and heads only where it may. -/
theorem trust_of_step {ρ : Roles} {p q : Side} {k : Op} {a : Access Cell Cell.Val} {w : Shared}
    (other : q ≠ p) (tails : ∀ d v, a = .store (.tail d) v → ρ.writer d = p)
    (heads : ∀ d v, a = .store (.head d) v → ρ.reader d = p) : Trust ρ q w (w.step p k a) := by
  constructor
  · exact ⟨[⟨p, k, w.mem, a⟩], rfl, by simpa using Ne.symm other⟩
  · intro d _ role
    cases a with
    | load c => rfl
    | store c v => cases c with
      | tail e =>
        have apart : d ≠ e := by
          rintro rfl
          exact other (role.symm.trans (tails d v rfl))
        exact Function.update_of_ne apart _ _
      | _ => rfl
  · intro d _ role
    cases a with
    | load c => rfl
    | store c v => cases c with
      | head e =>
        have apart : d ≠ e := by
          rintro rfl
          exact other (role.symm.trans (heads d v rfl))
        exact Function.update_of_ne apart _ _
      | _ => rfl
  · intro d _ role sound
    apply sound.2.2.1
    rw [role]
    exact Ne.symm other

def SparesEnds : Access Cell Cell.Val → Prop
  | .store (.tail _) _ => False
  | .store (.head _) _ => False
  | _ => True

theorem trust_of_spare {ρ : Roles} {p q : Side} {k : Op} {a : Access Cell Cell.Val} {w : Shared}
    (other : q ≠ p) (spares : SparesEnds a) : Trust ρ q w (w.step p k a) := by
  apply trust_of_step other
  · rintro d v rfl
    exact spares.elim
  · rintro d v rfl
    exact spares.elim

def SparesRings : Access Cell Cell.Val → Prop
  | .load _ => True
  | .store (.indexData _) _ => True
  | .store (.pruData _) _ => True
  | _ => False

section steps
variable {ρ : Roles} {size start : Channel → UInt32} {m : Ram} {log : List Entry}
  {p : Side} {k : Op} {d : Channel}

theorem storedList_spare {a : Access Cell Cell.Val} (spares : SparesRings a) (q : Side)
    (e : Channel) (log : List Entry) : storedList q e (⟨p, k, m, a⟩ :: log) = storedList q e log ∧
      total (advancedBy q e) (⟨p, k, m, a⟩ :: log) = total (advancedBy q e) log ∧
      total (removedBy q e) (⟨p, k, m, a⟩ :: log) = total (removedBy q e) log ∧
      total (storedBy q e) (⟨p, k, m, a⟩ :: log) = total (storedBy q e) log := by
  simp only [total_cons]
  cases a with
  | load c => exact ⟨rfl, Nat.zero_add _, Nat.zero_add _, Nat.zero_add _⟩
  | store c v =>
    cases c <;> first
      | exact spares.elim
      | exact ⟨rfl, Nat.zero_add _, Nat.zero_add _, Nat.zero_add _⟩

theorem Rings.spare (rings : Rings ρ size start m log) {a : Access Cell Cell.Val}
    (spares : SparesRings a)
    (counted : ∀ e, ρ.uses e → countedBy (ρ.writer e) e ⟨p, k, m, a⟩ +
      total (countedBy (ρ.writer e) e) log ≤ total (storedBy (ρ.writer e) e) log) :
    Rings ρ size start (a.perform m) (⟨p, k, m, a⟩ :: log) := by
  have same : (a.perform m).channelSize = m.channelSize ∧
      (a.perform m).bufferStart = m.bufferStart ∧ (a.perform m).tail = m.tail ∧
      (a.perform m).head = m.head ∧ (a.perform m).data = m.data := by
    cases a with
    | load c => exact ⟨rfl, rfl, rfl, rfl, rfl⟩
    | store c v => cases c <;> first | exact spares.elim | exact ⟨rfl, rfl, rfl, rfl, rfl⟩
  obtain ⟨sizes, starts, tail, head, data⟩ := same
  have quiet := fun q e => storedList_spare (p := p) (k := k) (m := m) spares q e log
  constructor
  · rw [sizes, rings.sizes]
  · rw [starts, rings.starts]
  · intro e used
    rw [tail, (quiet _ e).2.1, rings.tail e used]
  · intro e used
    rw [head, (quiet _ e).2.2.1, rings.head e used]
  · intro e used
    rw [data, (quiet _ e).1]
    exact rings.cells e used
  · intro e used
    rw [(quiet _ e).2.2.2, total_cons]
    exact counted e used

theorem Rings.load (rings : Rings ρ size start m log) (c : Cell) :
    Rings ρ size start m (⟨p, k, m, .load c⟩ :: log) := by
  refine rings.spare (a := .load c) trivial fun e used => ?_
  rw [countedBy, Nat.zero_add]
  exact rings.counted e used

theorem Rings.set_pruData (rings : Rings ρ size start m log) (i : Nat) (b : UInt8) :
    Rings ρ size start (m.set (.pruData i) b) (⟨p, k, m, .store (.pruData i) b⟩ :: log) := by
  refine rings.spare (a := .store (.pruData i) b) trivial fun e used => ?_
  rw [countedBy, Nat.zero_add]
  exact rings.counted e used

theorem mod_next (a n : Nat) : (a % n + 1) % n = (1 + a) % n := by
  rw [Nat.mod_add_mod, Nat.add_comm]

theorem Rings.set_tail (rings : Rings ρ size start m log) (used : ρ.uses d)
    (here : k.channel = d) (write : k.IsWrite) (role : ρ.writer d = p) {v : UInt32}
    (next : v.toNat = ((m.tail d).toNat + 1) % (size d).toNat) :
    Rings ρ size start (m.set (.tail d) v) (⟨p, k, m, .store (.tail d) v⟩ :: log) := by
  refine ⟨rings.sizes, rings.starts, fun e uses => ?_, fun e uses => ?_, rings.cells,
    fun e uses => ?_⟩
  · change (Function.update m.tail d v e).toNat = _
    by_cases same : e = d
    · subst same
      rw [Function.update_self, next, rings.tail e used, mod_next]
      simp [total_cons, advancedBy, role, write, here]
    · have away : k.channel ≠ e := by
        rw [here]
        exact Ne.symm same
      have still : tally (ρ.writer e) e (⟨p, k, m, .store (.tail d) v⟩ :: log) =
          tally (ρ.writer e) e log := tally_of_other (Or.inr away)
      rw [Function.update_of_ne same, rings.tail e uses]
      exact congrArg (fun t => t.advanced % (size e).toNat) still.symm
  · rw [total_cons, removedBy, Nat.zero_add]
    exact rings.head e uses
  · rw [total_cons, total_cons, countedBy, storedBy, Nat.zero_add, Nat.zero_add]
    exact rings.counted e uses

theorem Rings.set_head (rings : Rings ρ size start m log) (used : ρ.uses d)
    (here : k.channel = d) (read : ¬ k.IsWrite) (role : ρ.reader d = p) {v : UInt32}
    (next : v.toNat = ((m.head d).toNat + 1) % (size d).toNat) :
    Rings ρ size start (m.set (.head d) v) (⟨p, k, m, .store (.head d) v⟩ :: log) := by
  refine ⟨rings.sizes, rings.starts, fun e uses => ?_, fun e uses => ?_, rings.cells,
    fun e uses => ?_⟩
  · rw [total_cons, advancedBy, Nat.zero_add]
    exact rings.tail e uses
  · change (Function.update m.head d v e).toNat = _
    by_cases same : e = d
    · subst same
      rw [Function.update_self, next, rings.head e used, mod_next]
      simp [total_cons, removedBy, role, read, here]
    · have away : k.channel ≠ e := by
        rw [here]
        exact Ne.symm same
      have still : tally (ρ.reader e) e (⟨p, k, m, .store (.head d) v⟩ :: log) =
          tally (ρ.reader e) e log := tally_of_other (Or.inr away)
      rw [Function.update_of_ne same, rings.head e uses]
      exact congrArg (fun t => t.removed % (size e).toNat) still.symm
  · rw [total_cons, total_cons, countedBy, storedBy, Nat.zero_add, Nat.zero_add]
    exact rings.counted e uses

structure Regions (ρ : Roles) (size start : Channel → UInt32) : Prop where
  pos : ∀ d, ρ.uses d → 0 < (size d).toNat
  apart : ∀ c d x, c ≠ d → InRing size start c x → ¬ InRing size start d x

/-- Places less than a turn apart are different. -/
theorem mod_apart {i j n : Nat} (less : i < j) (near : j < i + n) : i % n ≠ j % n := by
  intro same
  have turn : (j - i) % n = 0 := by
    rw [← Nat.sub_mod_eq_zero_of_mod_eq same.symm]
  rw [Nat.mod_eq_of_lt (by omega)] at turn
  omega

theorem Rings.set_data (regions : Regions ρ size start) (rings : Rings ρ size start m log)
    (used : ρ.uses d) (here : k.channel = d) (write : k.IsWrite) (role : ρ.writer d = p)
    (place : total (storedBy p d) log = total (advancedBy p d) log) {x : UInt32}
    (tail : x = start d + m.tail d) (v : UInt8) :
    Rings ρ size start (m.set (.data x) v) (⟨p, k, m, .store (.data x) v⟩ :: log) := by
  have positive := regions.pos d used
  have bound := (size d).toNat_lt
  have at_tail : x =
      start d + UInt32.ofNat ((storedList p d log).length % (size d).toNat) := by
    have value := rings.tail d used
    rw [role, ← place, ← storedList_length] at value
    rw [tail, ← value, UInt32.ofNat_toNat]
  refine ⟨rings.sizes, rings.starts, fun e uses => ?_, fun e uses => ?_, fun e uses => ?_,
    fun e uses => ?_⟩
  · rw [total_cons, advancedBy, Nat.zero_add]
    exact rings.tail e uses
  · rw [total_cons, removedBy, Nat.zero_add]
    exact rings.head e uses
  · intro j b found recent
    change Function.update m.data x v (start e + UInt32.ofNat (j % (size e).toNat)) = b
    by_cases same : e = d
    · subst same
      have longer : storedList (ρ.writer e) e (⟨p, k, m, .store (.data x) v⟩ :: log) =
          storedList p e log ++ [v] := by
        simp [storedList, role, write, here]
      rw [longer] at found recent
      rw [List.length_append, List.length_singleton] at recent
      rcases Nat.lt_trichotomy j (storedList p e log).length with before | last | beyond
      · rw [List.getElem?_append_left before] at found
        have other : start e + UInt32.ofNat (j % (size e).toNat) ≠ x := by
          rw [at_tail]
          intro hit
          have less := Nat.mod_lt j positive
          have less' := Nat.mod_lt (storedList p e log).length positive
          have equal := add_ofNat_injective (by omega) (by omega) hit
          exact mod_apart before (by omega) equal
        rw [Function.update_of_ne other]
        apply rings.cells e used j b
        · rw [role]
          exact found
        · rw [role]
          omega
      · subst last
        rw [List.getElem?_append_right (Nat.le_refl _), Nat.sub_self] at found
        rw [← at_tail, Function.update_self]
        exact Option.some.inj found
      · rw [List.getElem?_eq_none (by simp; omega)] at found
        cases found
    · have away : k.channel ≠ e := by
        rw [here]
        exact Ne.symm same
      have still : storedList (ρ.writer e) e (⟨p, k, m, .store (.data x) v⟩ :: log) =
          storedList (ρ.writer e) e log := storedList_of_other (Or.inr away)
      rw [still] at found recent
      have other : start e + UInt32.ofNat (j % (size e).toNat) ≠ x := by
        intro hit
        refine regions.apart e d x same ⟨_, Nat.mod_lt j (regions.pos e uses), hit.symm⟩ ?_
        exact ⟨_, Nat.mod_lt _ positive, at_tail⟩
      rw [Function.update_of_ne other]
      exact rings.cells e uses j b found recent
  · have more : total (storedBy (ρ.writer e) e) log ≤
        total (storedBy (ρ.writer e) e) (⟨p, k, m, .store (.data x) v⟩ :: log) := by
      rw [total_cons]
      exact Nat.le_add_left _ _
    rw [total_cons, countedBy, Nat.zero_add]
    exact Nat.le_trans (rings.counted e uses) more

end steps

theorem may_store {ρ : Roles} {size : Channel → UInt32} {p : Side} {k : Op} {w : Shared} {c : Cell}
    {v : c.Val} (x : UInt32) (same : (Access.store c v : Access Cell Cell.Val) = .load (.data x)) :
    TakesNext ρ size p k x w := by
  cases same

def delivery (ρ : Roles) (size start : Channel → UInt32) : Protocol Side Op Cell Cell.Val Ram where
  inv w := Rings ρ size start w.mem w.log
  idle p w := ∀ d, (tally p d w.log).Even
  rely := Trust ρ
  may p k a w := ∀ x, a = .load (.data x) → TakesNext ρ size p k x w
  rely_refl := Trust.refl ρ
  rely_trans _ _ _ _ := Trust.trans
  idle_stable p w v even moved d := by
    rw [moved.tally d]
    exact even d
  load_inv _ _ c _ rings := rings.load c
  load_rely p q k c w other := trust_of_spare (a := .load c) other trivial

end PruBridge
