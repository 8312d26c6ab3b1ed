import PruBridge.Interleaving
import PruBridge.Operations

/-!
The ARM and the PRU as two parties on one RAM, each making its own calls one after
another, with single loads and stores as steps. The accounts below read the log of a run:
bytes stored and bytes counted in, bytes removed and bytes counted out.
-/
namespace PruBridge
open AtomicProgram

structure Roles where
  uses : Channel → Prop
  writer : Channel → Side
  reader : Channel → Side

structure Roles.Allowed (ρ : Roles) (p : Side) (op : Op) : Prop where
  uses : ρ.uses op.channel
  side : op.side = p
  nonneg : op.Nonneg
  writer : op.IsWrite → ρ.writer op.channel = p
  reader : ¬ op.IsWrite → ρ.reader op.channel = p

def parties (ρ : Roles) : Clients Side Op Cell Cell.Val Fault Ret Ram :=
  ⟨ρ.Allowed, Op.prepare, Op.body⟩

abbrev Entry := Event Side Op Cell Cell.Val Ram

abbrev Shared := World Side Op Cell Cell.Val Ram

abbrev State := Conf Side Op Cell Cell.Val Fault Ret Ram

/-- The bytes an entry stores, as a write of party `p` to channel `d`. -/
def storedBy (p : Side) (d : Channel) (e : Entry) : Nat :=
  match e.access with
  | .store (.data _) _ => if e.party = p ∧ e.call.IsWrite ∧ e.call.channel = d then 1 else 0
  | _ => 0

/-- The bytes a write adds to the counter when it stores it. -/
def countedBy (p : Side) (d : Channel) (e : Entry) : Nat :=
  match e.access with
  | .store (.indexData _) _ =>
    if e.party = p ∧ e.call.IsWrite ∧ e.call.channel = d then e.call.writes else 0
  | _ => 0

/-- The bytes an entry removes, as a read of party `p`: each moves the head by one. -/
def removedBy (p : Side) (d : Channel) (e : Entry) : Nat :=
  match e.access with
  | .store (.head _) _ => if e.party = p ∧ ¬ e.call.IsWrite ∧ e.call.channel = d then 1 else 0
  | _ => 0

def releasedBy (p : Side) (d : Channel) (e : Entry) : Nat :=
  match e.access with
  | .store (.indexData _) _ =>
    if e.party = p ∧ ¬ e.call.IsWrite ∧ e.call.channel = d then e.call.reads else 0
  | _ => 0

def total (f : Entry → Nat) (log : List Entry) : Nat := (log.map f).sum

def StoresIndex (d : Channel) (e : Entry) : Prop :=
  match e.access with
  | .store (.indexData c) _ => c = d
  | _ => False

def LoadsIndex (d : Channel) (e : Entry) : Prop :=
  match e.access with
  | .load (.indexData c) => c = d
  | _ => False

/-- A store that changes the counter: one of length 0 does not. -/
def MovesIndex (d : Channel) (e : Entry) : Prop :=
  match e.access with
  | .store (.indexData c) v => c = d ∧ v ≠ e.before.indexData c
  | _ => False

/-- Since the last time `p` loaded the counter of `d`, nobody else has changed it. -/
def Unmoved (p : Side) (d : Channel) : List Entry → Prop
  | [] => True
  | e :: log =>
    if e.party = p then LoadsIndex d e ∨ Unmoved p d log else ¬ MovesIndex d e ∧ Unmoved p d log

def Undisturbed (d : Channel) : List Entry → Prop
  | [] => True
  | e :: log => (StoresIndex d e → Unmoved e.party d log) ∧ Undisturbed d log

/-- No write meets channel `d` full: every byte is stored while the counter, with the
    bytes of the same write that it does not count yet, is below the size. -/
def FindsRoom (size : Channel → UInt32) (d : Channel) : List Entry → Prop
  | [] => True
  | e :: log => (storedBy e.party d e ≠ 0 → (e.before.indexData d).toNat +
      (total (storedBy e.party d) log - total (countedBy e.party d) log) < (size d).toNat) ∧
    FindsRoom size d log

def StaysInside (log : List Entry) : Prop :=
  ∀ k ∈ log.filterMap fun e => dataCell e.access, k.toNat < totalBufferSize

instance (log : List Entry) : Decidable (StaysInside log) :=
  List.decidableBAll _ _

instance (d : Channel) (e : Entry) : Decidable (StoresIndex d e) := by
  unfold StoresIndex
  split <;> infer_instance

instance (d : Channel) (e : Entry) : Decidable (LoadsIndex d e) := by
  unfold LoadsIndex
  split <;> infer_instance

instance (d : Channel) (e : Entry) : Decidable (MovesIndex d e) := by
  unfold MovesIndex
  split
  · exact inferInstanceAs (Decidable (_ ∧ (_ : UInt32) ≠ _))
  · infer_instance

instance unmovedDecidable (p : Side) (d : Channel) :
    (log : List Entry) → Decidable (Unmoved p d log)
  | [] => isTrue trivial
  | e :: log =>
    have := unmovedDecidable p d log
    inferInstanceAs (Decidable (if e.party = p then _ else _))

instance undisturbedDecidable (d : Channel) : (log : List Entry) → Decidable (Undisturbed d log)
  | [] => isTrue trivial
  | _ :: log =>
    have := undisturbedDecidable d log
    inferInstanceAs (Decidable (_ ∧ _))

instance findsRoomDecidable (size : Channel → UInt32) (d : Channel) :
    (log : List Entry) → Decidable (FindsRoom size d log)
  | [] => isTrue trivial
  | _ :: log =>
    have := findsRoomDecidable size d log
    inferInstanceAs (Decidable (_ ∧ _))

section accounts
variable {p : Side} {d : Channel} {size : Channel → UInt32}

@[simp] theorem total_cons (f : Entry → Nat) (e : Entry) (log : List Entry) :
    total f (e :: log) = f e + total f log := by
  simp [total]

theorem total_append (f : Entry → Nat) (new log : List Entry) :
    total f (new ++ log) = total f new + total f log := by
  simp [total]

theorem total_of_zero {f : Entry → Nat} {log : List Entry} (none : ∀ e ∈ log, f e = 0) :
    total f log = 0 := by
  induction log with
  | nil => rfl
  | cons e log ih =>
    rw [total_cons, none e (by simp), ih fun e mem => none e (by simp [mem])]

theorem findsRoom_append {new log : List Entry} (room : FindsRoom size d (new ++ log)) :
    FindsRoom size d log := by
  induction new with
  | nil => exact room
  | cons e new ih => exact ih room.2

theorem unmoved_append {new log : List Entry} (others : ∀ e ∈ new, e.party ≠ p)
    (unmoved : Unmoved p d (new ++ log)) :
    (∀ e ∈ new, ¬ MovesIndex d e) ∧ Unmoved p d log := by
  induction new with
  | nil => exact ⟨by simp, unmoved⟩
  | cons e new ih =>
    rw [List.cons_append, Unmoved, if_neg (others e (by simp))] at unmoved
    obtain ⟨rest, before⟩ := ih (fun e mem => others e (by simp [mem])) unmoved.2
    refine ⟨fun f mem => ?_, before⟩
    rcases List.mem_cons.mp mem with rfl | later
    · exact unmoved.1
    · exact rest f later

theorem accounts_of_other {e : Entry} (other : e.party ≠ p) :
    storedBy p d e = 0 ∧ countedBy p d e = 0 ∧ removedBy p d e = 0 ∧ releasedBy p d e = 0 := by
  have no : ∀ q : Prop, ¬ (e.party = p ∧ q) := fun q both => other both.1
  unfold storedBy countedBy removedBy releasedBy
  refine ⟨?_, ?_, ?_, ?_⟩ <;> split <;> simp only [no, ↓reduceIte]

theorem index_of_not_moves {q : Side} {k : Op} {m : Ram} {c : Channel} {v : UInt32}
    (still : ¬ MovesIndex d ⟨q, k, m, .store (.indexData c) v⟩) :
    Function.update m.indexData c v d = m.indexData d := by
  by_cases same : d = c
  · subst same
    rw [Function.update_self]
    by_contra moves
    exact still ⟨rfl, moves⟩
  · exact Function.update_of_ne same _ _

end accounts

/-- The accounts of `p`: each byte it stored is counted in, up to `j`, and each byte it
    removed is counted out, up to `l`. -/
structure Books (size : Channel → UInt32) (p : Side) (j l : Channel → Int) (w : Shared) : Prop where
  written : ∀ d, FindsRoom size d w.log →
    (total (storedBy p d) w.log : Int) = total (countedBy p d) w.log + j d
  read : ∀ d, (total (removedBy p d) w.log : Int) = total (releasedBy p d) w.log + l d

/-- What a party can count on while the others move: its accounts are its own, the
    counter only moves when somebody stores it, and only in one direction. -/
structure Rely (ρ : Roles) (p : Side) (w w' : Shared) : Prop where
  log : ∃ new, w'.log = new ++ w.log ∧ (∀ e ∈ new, e.party ≠ p) ∧
    ∀ d, (∀ e ∈ new, ¬ MovesIndex d e) → w'.mem.indexData d = w.mem.indexData d
  lowers : ∀ d, ρ.uses d → ρ.writer d = p → w'.mem.indexData d ≤ w.mem.indexData d
  raises : ∀ d, ρ.uses d → ρ.reader d = p → w.mem.indexData d ≤ w'.mem.indexData d

structure Inv (ρ : Roles) (size start : Channel → UInt32) (w : Shared) : Prop where
  sizes : w.mem.channelSize = size
  starts : w.mem.bufferStart = start
  head : ∀ d, ρ.uses d → w.mem.head d < size d
  tail : ∀ d, ρ.uses d → w.mem.tail d < size d
  index : ∀ d, ρ.uses d → w.mem.indexData d ≤ size d
  counter : ∀ d, ρ.uses d → FindsRoom size d w.log → Undisturbed d w.log →
    (w.mem.indexData d).toNat + total (releasedBy (ρ.reader d) d) w.log =
      total (countedBy (ρ.writer d) d) w.log

theorem Rely.refl (ρ : Roles) (p : Side) (w : Shared) : Rely ρ p w w where
  log := ⟨[], rfl, by simp, fun _ _ => rfl⟩
  lowers _ _ _ := UInt32.le_refl _
  raises _ _ _ := UInt32.le_refl _

theorem Rely.trans {ρ : Roles} {p : Side} {u v w : Shared} (first : Rely ρ p u v)
    (second : Rely ρ p v w) : Rely ρ p u w where
  log := by
    obtain ⟨new, eq, others, still⟩ := first.log
    obtain ⟨new', eq', others', still'⟩ := second.log
    refine ⟨new' ++ new, by rw [eq', eq, List.append_assoc], fun e mem => ?_, fun d quiet => ?_⟩
    · rcases List.mem_append.mp mem with later | before
      · exact others' e later
      · exact others e before
    · rw [still' d fun e mem => quiet e (List.mem_append_left _ mem),
        still d fun e mem => quiet e (List.mem_append_right _ mem)]
  lowers d used role := UInt32.le_trans (second.lowers d used role) (first.lowers d used role)
  raises d used role := UInt32.le_trans (first.raises d used role) (second.raises d used role)

theorem Books.rely {size : Channel → UInt32} {ρ : Roles} {p : Side} {j l : Channel → Int}
    {w w' : Shared} (books : Books size p j l w) (moved : Rely ρ p w w') : Books size p j l w' := by
  obtain ⟨new, eq, others, -⟩ := moved.log
  have none := fun d e (mem : e ∈ new) => accounts_of_other (d := d) (others e mem)
  constructor
  · intro d room
    rw [eq] at room ⊢
    rw [total_append, total_append, total_of_zero fun e mem => (none d e mem).1,
      total_of_zero fun e mem => (none d e mem).2.1, Nat.zero_add, Nat.zero_add]
    exact books.written d (findsRoom_append room)
  · intro d
    rw [eq, total_append, total_append, total_of_zero fun e mem => (none d e mem).2.2.1,
      total_of_zero fun e mem => (none d e mem).2.2.2, Nat.zero_add, Nat.zero_add]
    exact books.read d

theorem Books.own {size : Channel → UInt32} {p : Side} {j l j' l' : Channel → Int} {w : Shared}
    (books : Books size p j l w) (k : Op) (a : Access Cell Cell.Val)
    (stored : ∀ d, j' d = j d + storedBy p d ⟨p, k, w.mem, a⟩ - countedBy p d ⟨p, k, w.mem, a⟩)
    (removed : ∀ d, l' d = l d + removedBy p d ⟨p, k, w.mem, a⟩ -
      releasedBy p d ⟨p, k, w.mem, a⟩) : Books size p j' l' (w.step p k a) := by
  constructor
  · intro d room
    have before := books.written d room.2
    simp only [World.step, total_cons, stored]
    omega
  · intro d
    have before := books.read d
    simp only [World.step, total_cons, removed]
    omega

def SparesCounters : Access Cell Cell.Val → Prop
  | .store (.indexData _) _ => False
  | _ => True

section spares
variable {a : Access Cell Cell.Val} (spares : SparesCounters a) (p : Side) (k : Op) (w : Shared)
include spares

theorem index_of_spares : (w.step p k a).mem.indexData = w.mem.indexData := by
  cases a with
  | load c => rfl
  | store c v => cases c <;> first | rfl | exact spares.elim

theorem accounts_of_spares (q : Side) (d : Channel) :
    countedBy q d ⟨p, k, w.mem, a⟩ = 0 ∧ releasedBy q d ⟨p, k, w.mem, a⟩ = 0 := by
  cases a with
  | load c => exact ⟨rfl, rfl⟩
  | store c v => cases c <;> first | exact ⟨rfl, rfl⟩ | exact spares.elim

theorem rely_of_spares (ρ : Roles) {q : Side} (other : q ≠ p) : Rely ρ q w (w.step p k a) := by
  have same := index_of_spares spares p k w
  refine ⟨⟨[⟨p, k, w.mem, a⟩], rfl, by simpa using Ne.symm other, fun d _ => ?_⟩, ?_, ?_⟩
  · rw [same]
  · intro d _ _
    rw [same]
    exact UInt32.le_refl _
  · intro d _ _
    rw [same]
    exact UInt32.le_refl _

theorem Inv.spare {ρ : Roles} {size start : Channel → UInt32} {w : Shared}
    (inv : Inv ρ size start w) (sizes : (a.perform w.mem).channelSize = size)
    (starts : (a.perform w.mem).bufferStart = start)
    (head : ∀ d, ρ.uses d → (a.perform w.mem).head d < size d)
    (tail : ∀ d, ρ.uses d → (a.perform w.mem).tail d < size d) :
    Inv ρ size start (w.step p k a) := by
  have same := index_of_spares spares p k w
  have none := accounts_of_spares spares p k w
  refine ⟨sizes, starts, head, tail, ?_, ?_⟩
  · intro d used
    rw [same]
    exact inv.index d used
  · intro d used room undisturbed
    have before := inv.counter d used room.2 undisturbed.2
    rw [same]
    simp only [World.step, total_cons, none, Nat.zero_add]
    exact before

end spares

section index
variable {ρ : Roles} {size start : Channel → UInt32} {p : Side} {k : Op} {d : Channel} {v : UInt32}
  {w : Shared}

/-- A call to channel `d` puts nothing on the accounts of another channel. -/
theorem accounts_of_elsewhere {c : Channel} (here : k.channel = d) (other : c ≠ d) (q : Side)
    (a : Access Cell Cell.Val) :
    countedBy q c ⟨p, k, w.mem, a⟩ = 0 ∧ releasedBy q c ⟨p, k, w.mem, a⟩ = 0 := by
  have apart : k.channel ≠ c := by
    rw [here]
    exact Ne.symm other
  unfold countedBy releasedBy
  constructor
  · split <;> simp only [apart, and_false, ↓reduceIte]
  · split <;> simp only [apart, and_false, ↓reduceIte]

theorem Inv.store_index (inv : Inv ρ size start w) (here : k.channel = d) (top : v ≤ size d)
    (settled : FindsRoom size d w.log → Undisturbed d w.log → Unmoved p d w.log →
      v.toNat + total (releasedBy (ρ.reader d) d) (w.step p k (.store (.indexData d) v)).log =
        total (countedBy (ρ.writer d) d) (w.step p k (.store (.indexData d) v)).log) :
    Inv ρ size start (w.step p k (.store (.indexData d) v)) := by
  refine ⟨inv.sizes, inv.starts, inv.head, inv.tail, ?_, ?_⟩
  · intro c used
    change Function.update w.mem.indexData d v c ≤ size c
    by_cases same : c = d
    · subst same
      rwa [Function.update_self]
    · rw [Function.update_of_ne same]
      exact inv.index c used
  · intro c used room undisturbed
    change (Function.update w.mem.indexData d v c).toNat + _ = _
    by_cases same : c = d
    · subst same
      rw [Function.update_self]
      exact settled room.2 undisturbed.2 (undisturbed.1 rfl)
    · have none := accounts_of_elsewhere (p := p) (w := w) here same
      rw [Function.update_of_ne same]
      simp only [World.step, total_cons, none, Nat.zero_add]
      exact inv.counter c used room.2 undisturbed.2

/-- A store of the counter is tolerated by the others when it does not move the counter
    against the one that looks at it. -/
theorem rely_of_index {q : Side} (other : q ≠ p) (lowers : ρ.writer d = q → v ≤ w.mem.indexData d)
    (raises : ρ.reader d = q → w.mem.indexData d ≤ v) :
    Rely ρ q w (w.step p k (.store (.indexData d) v)) := by
  refine ⟨⟨[⟨p, k, w.mem, .store (.indexData d) v⟩], rfl, by simpa using Ne.symm other, ?_⟩, ?_, ?_⟩
  · intro c quiet
    exact index_of_not_moves (quiet _ (List.mem_singleton_self _))
  · intro c _ role
    change Function.update w.mem.indexData d v c ≤ w.mem.indexData c
    by_cases same : c = d
    · subst same
      rw [Function.update_self]
      exact lowers role
    · rw [Function.update_of_ne same]
      exact UInt32.le_refl _
  · intro c _ role
    change w.mem.indexData c ≤ Function.update w.mem.indexData d v c
    by_cases same : c = d
    · subst same
      rw [Function.update_self]
      exact raises role
    · rw [Function.update_of_ne same]
      exact UInt32.le_refl _

end index

theorem Inv.load {ρ : Roles} {size start : Channel → UInt32} {w : Shared} (inv : Inv ρ size start w)
    (p : Side) (k : Op) (c : Cell) : Inv ρ size start (w.step p k (.load c)) :=
  Inv.spare (a := .load c) trivial p k inv inv.sizes inv.starts inv.head inv.tail

def InRing (size start : Channel → UInt32) (d : Channel) (k : UInt32) : Prop :=
  ∃ i, i < (size d).toNat ∧ k = start d + UInt32.ofNat i

def bridge (ρ : Roles) (size start : Channel → UInt32) : Protocol Side Op Cell Cell.Val Ram where
  inv := Inv ρ size start
  idle p := Books size p 0 0
  rely := Rely ρ
  may _ k a _ := ∀ x ∈ dataCell a, InRing size start k.channel x
  rely_refl := Rely.refl ρ
  rely_trans _ _ _ _ := Rely.trans
  idle_stable _ _ _ := Books.rely
  load_inv p k c _ inv := inv.load p k c
  load_rely p _ k c w other := rely_of_spares (a := .load c) trivial p k w ρ other

end PruBridge
