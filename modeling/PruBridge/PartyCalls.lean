import PruBridge.MachineWords
import PruBridge.Parties

/-!
What each call does for the protocol of the two parties, access by access. The writer of
a channel only sees its counter fall between its own stores, the reader only sees it
rise, so a guard that held once still holds when the counter is stored.
-/
namespace PruBridge
open AtomicProgram MachineWords

section blocks
variable {ρ : Roles} {size start : Channel → UInt32} {p : Side} {k : Op} {d : Channel}
  {α : Type} {S : Shared → Prop} {Q : α → Shared → Prop}

abbrev Does (ρ : Roles) (size start : Channel → UInt32) (p : Side) (k : Op) {α : Type}
    (S : Shared → Prop) (body : Code α) (Q : α → Shared → Prop) : Prop :=
  Triple (bridge ρ size start) p k S body Q

theorem Does.spare_store {T : Shared → Prop} {c : Cell} {v : c.Val} {next : Code α}
    (stable : Stable (bridge ρ size start) p S)
    (spares : SparesCounters (.store c v)) (ring : ∀ x ∈ dataCell (.store c v),
      InRing size start k.channel x)
    (inv : ∀ w, Inv ρ size start w → Inv ρ size start (w.step p k (.store c v)))
    (kept : ∀ w, Inv ρ size start w → S w → T (w.step p k (.store c v)))
    (later : Does ρ size start p k T next Q) : Does ρ size start p k S (.store c v next) Q :=
  Triple.store stable (fun w before here => ⟨ring, inv w before,
    fun _ other => rely_of_spares spares p k w ρ other, kept w before here⟩) later

theorem Inv.set_data {w : Shared} (inv : Inv ρ size start w) (x : UInt32) (b : UInt8) :
    Inv ρ size start (w.step p k (.store (.data x) b)) :=
  Inv.spare (a := .store (.data x) b) trivial p k inv inv.sizes inv.starts inv.head inv.tail

theorem Inv.set_pruData {w : Shared} (inv : Inv ρ size start w) (i : Nat) (b : UInt8) :
    Inv ρ size start (w.step p k (.store (.pruData i) b)) :=
  Inv.spare (a := .store (.pruData i) b) trivial p k inv inv.sizes inv.starts inv.head inv.tail

theorem Inv.set_head {w : Shared} (inv : Inv ρ size start w) {v : UInt32} (lt : v < size d) :
    Inv ρ size start (w.step p k (.store (.head d) v)) := by
  refine Inv.spare (a := .store (.head d) v) trivial p k inv inv.sizes inv.starts ?_ inv.tail
  intro e used
  change Function.update w.mem.head d v e < size e
  by_cases same : e = d
  · subst same
    rwa [Function.update_self]
  · rw [Function.update_of_ne same]
    exact inv.head e used

theorem Inv.set_tail {w : Shared} (inv : Inv ρ size start w) {v : UInt32} (lt : v < size d) :
    Inv ρ size start (w.step p k (.store (.tail d) v)) := by
  apply Inv.spare (a := .store (.tail d) v) trivial p k inv inv.sizes inv.starts inv.head
  intro e used
  change Function.update w.mem.tail d v e < size e
  by_cases same : e = d
  · subst same
    rwa [Function.update_self]
  · rw [Function.update_of_ne same]
    exact inv.tail e used

variable (used : ρ.uses d)
include used

theorem tailCell_does (steady : Steady (bridge ρ size start) p k S) :
    Does ρ size start p k S (tailCell d) fun x w => S w ∧ InRing size start d x := by
  refine Triple.read steady (fun v => v = start d) (fun _ _ _ => nofun)
    (fun w inv _ => congrFun inv.starts d) fun v same => ?_
  refine Triple.read steady (fun t => t < size d) (fun _ _ _ => nofun)
    (fun w inv _ => inv.tail d used) fun t lt => ?_
  refine Triple.ret steady.stable fun w _ here => ⟨here, t.toNat, ?_, ?_⟩
  · exact UInt32.lt_iff_toNat_lt.mp lt
  · rw [same, UInt32.ofNat_toNat]

theorem headCell_does (steady : Steady (bridge ρ size start) p k S) :
    Does ρ size start p k S (headCell d) fun x w => S w ∧ InRing size start d x := by
  refine Triple.read steady (fun v => v = start d) (fun _ _ _ => nofun)
    (fun w inv _ => congrFun inv.starts d) fun v same => ?_
  refine Triple.read steady (fun t => t < size d) (fun _ _ _ => nofun)
    (fun w inv _ => inv.head d used) fun t lt => ?_
  refine Triple.ret steady.stable fun w _ here => ⟨here, t.toNat, ?_, ?_⟩
  · exact UInt32.lt_iff_toNat_lt.mp lt
  · rw [same, UInt32.ofNat_toNat]

omit used in
theorem Does.in_ring {x : UInt32} {body : Code α}
    (later : InRing size start d x → Does ρ size start p k S body Q) :
    Does ρ size start p k (fun w => S w ∧ InRing size start d x) body Q :=
  fun w inv here => later here.2 w inv here.1

theorem advanceTail_does {T : Shared → Prop} (steady : Steady (bridge ρ size start) p k S)
    (after : Stable (bridge ρ size start) p T)
    (kept : ∀ w v, S w → T (w.step p k (.store (.tail d) v))) :
    Does ρ size start p k S (advanceTail d) fun _ => T := by
  refine Triple.read steady (fun t => t < size d) (fun _ _ _ => nofun)
    (fun w inv _ => inv.tail d used) fun t lt => ?_
  refine Triple.read steady (fun n => n = size d) (fun _ _ _ => nofun)
    (fun w inv _ => congrFun inv.sizes d) fun n same => ?_
  subst same
  change Does ρ size start p k S (umod (t + 1) (size d) >>= fun t' => store (.tail d) t') _
  rw [umod_pos _ (ne_zero_of_lt lt)]
  exact Does.spare_store steady.stable trivial nofun
    (fun w inv => inv.set_tail (next_lt lt)) (fun w _ here => kept w _ here)
    (Triple.ret after fun _ _ here => here)

theorem advanceHead_does {T : Shared → Prop} (steady : Steady (bridge ρ size start) p k S)
    (after : Stable (bridge ρ size start) p T)
    (kept : ∀ w v, S w → T (w.step p k (.store (.head d) v))) :
    Does ρ size start p k S (advanceHead d) fun _ => T := by
  refine Triple.read steady (fun t => t < size d) (fun _ _ _ => nofun)
    (fun w inv _ => inv.head d used) fun t lt => ?_
  refine Triple.read steady (fun n => n = size d) (fun _ _ _ => nofun)
    (fun w inv _ => congrFun inv.sizes d) fun n same => ?_
  subst same
  change Does ρ size start p k S (umod (t + 1) (size d) >>= fun t' => store (.head d) t') _
  rw [umod_pos _ (ne_zero_of_lt lt)]
  exact Does.spare_store steady.stable trivial nofun
    (fun w inv => inv.set_head (next_lt lt)) (fun w _ here => kept w _ here)
    (Triple.ret after fun _ _ here => here)

omit used in
theorem printkRing_does {cell : Code UInt32} (here : k.channel = d)
    (steady : Steady (bridge ρ size start) p k S)
    (does : Does ρ size start p k S cell fun x w => S w ∧ InRing size start d x) :
    Does ρ size start p k S (Driver.printkRing d cell) fun _ => S := by
  refine does.bind fun x => Does.in_ring fun inside => ?_
  refine Triple.skip steady (fun _ _ _ y mem => ?_) fun _ => ?_
  · rw [← Option.some.inj mem, here]
    exact inside
  refine does.bind fun y => Does.in_ring fun _ => ?_
  exact Triple.skip steady (fun _ _ _ => nofun) fun _ =>
    Triple.ret steady.stable fun _ _ here => here

end blocks

def only (d : Channel) (j : Int) : Channel → Int := Function.update 0 d j

theorem only_zero (d : Channel) : only d 0 = 0 := Function.update_eq_self_iff.mpr rfl

/-- Inside a write to `d`: `j` bytes are stored and not yet counted, and if every byte so
    far found room, the counter leaves room for them. -/
structure Writing (size : Channel → UInt32) (p : Side) (d : Channel) (j : Nat) (w : Shared) :
    Prop where
  books : Books size p (only d j) 0 w
  room : FindsRoom size d w.log → (w.mem.indexData d).toNat + j ≤ (size d).toNat

def Fresh (p : Side) (d : Channel) (i : UInt32) (w : Shared) : Prop :=
  Unmoved p d w.log → w.mem.indexData d = i

section writes
variable {ρ : Roles} {size start : Channel → UInt32} {p : Side} {k : Op} {d : Channel}

theorem findsRoom_of_rely {w v : Shared} (moved : Rely ρ p w v) (room : FindsRoom size d v.log) :
    FindsRoom size d w.log := by
  obtain ⟨new, eq, -, -⟩ := moved.log
  rw [eq] at room
  exact findsRoom_append room

theorem Fresh.rely {i : UInt32} {w v : Shared} (fresh : Fresh p d i w) (moved : Rely ρ p w v) :
    Fresh p d i v := by
  intro unmoved
  obtain ⟨new, eq, others, still⟩ := moved.log
  rw [eq] at unmoved
  obtain ⟨quiet, before⟩ := unmoved_append others unmoved
  rw [still d quiet, fresh before]

theorem Fresh.of_load (w : Shared) : Fresh p d (w.mem.indexData d)
    (w.step p k (.load (.indexData d))) := fun _ => rfl

theorem Fresh.load {i : UInt32} {w : Shared} (fresh : Fresh p d i w) {c : Cell}
    (other : ∀ e, c ≠ .indexData e) : Fresh p d i (w.step p k (.load c)) := by
  intro unmoved
  simp only [World.step, Unmoved, ↓reduceIte] at unmoved
  apply fresh
  rcases unmoved with here | before
  · cases c <;> first | exact here.elim | exact absurd rfl (other _)
  · exact before

theorem Books.load {j l : Channel → Int} {w : Shared} (books : Books size p j l w) (c : Cell) :
    Books size p j l (w.step p k (.load c)) :=
  books.own k (.load c) (by simp [storedBy, countedBy]) (by simp [removedBy, releasedBy])

variable (used : ρ.uses d) (role : ρ.writer d = p)
include used role

theorem Writing.stable (j : Nat) : Stable (bridge ρ size start) p (Writing size p d j) := by
  intro w v writing moved
  refine ⟨writing.books.rely moved, fun room => ?_⟩
  have before := writing.room (findsRoom_of_rely moved room)
  have lower := UInt32.le_iff_toNat_le.mp (moved.lowers d used role)
  omega

theorem Writing.steady (j : Nat) : Steady (bridge ρ size start) p k (Writing size p d j) :=
  ⟨Writing.stable used role j, fun _ c writing =>
    ⟨writing.books.load c, fun room => writing.room room.2⟩⟩

theorem store_data_does {α : Type} {Q : α → Shared → Prop} {j : Nat} {x : UInt32} {b : UInt8}
    {next : Code α} (here : k.channel = d) (write : k.IsWrite) (inside : InRing size start d x)
    (later : Does ρ size start p k (Writing size p d (j + 1)) next Q) :
    Does ρ size start p k (Writing size p d j) (.store (.data x) b next) Q := by
  refine Does.spare_store (Writing.stable used role j) trivial (fun y mem => ?_)
    (fun w inv => inv.set_data x b) (fun w _ writing => ?_) later
  · rw [← Option.some.inj mem, here]
    exact inside
  have one : storedBy p d ⟨p, k, w.mem, .store (.data x) b⟩ = 1 := by
    simp [storedBy, write, here]
  refine ⟨writing.books.own k _ (fun e => ?_) (by simp [removedBy, releasedBy]), fun room => ?_⟩
  · by_cases same : e = d
    · subst same
      rw [one]
      simp [only, countedBy]
    · have none : storedBy p e ⟨p, k, w.mem, .store (.data x) b⟩ = 0 := by
        simp [storedBy, here, Ne.symm same]
      rw [none]
      simp [only, countedBy, Function.update_of_ne same]
  · have found := room.1 (by rw [one]; exact Nat.one_ne_zero)
    have lag := writing.books.written d room.2
    simp only [only, Function.update_self] at lag
    change (w.mem.indexData d).toNat + (j + 1) ≤ (size d).toNat
    simp only at found
    omega

/-- Inside a write, between the test of the counter and its store: `n` bytes wait to be
    counted, the test found `i`, and the counter has only fallen since. -/
structure Tested (size : Channel → UInt32) (p : Side) (d : Channel) (n : Nat) (i : UInt32)
    (w : Shared) : Prop where
  writing : Writing size p d n w
  below : w.mem.indexData d ≤ i
  fresh : Fresh p d i w
  fits : FindsRoom size d w.log → i.toNat + n ≤ (size d).toNat

theorem Tested.stable (n : Nat) (i : UInt32) :
    Stable (bridge ρ size start) p (Tested size p d n i) := by
  intro w v tested moved
  have writing : Stable (bridge ρ size start) p (Writing size p d n) := Writing.stable used role n
  exact ⟨writing w v tested.writing moved,
    UInt32.le_trans (moved.lowers d used role) tested.below, tested.fresh.rely moved,
    fun room => tested.fits (findsRoom_of_rely moved room)⟩

omit used role in
theorem Tested.load {n : Nat} {i : UInt32} {w : Shared} (tested : Tested size p d n i w) {c : Cell}
    (other : ∀ e, c ≠ .indexData e) : Tested size p d n i (w.step p k (.load c)) :=
  ⟨⟨tested.writing.books.load c, fun room => tested.writing.room room.2⟩, tested.below,
    tested.fresh.load other, fun room => tested.fits room.2⟩

omit used role in
theorem Tested.of_load {n : Nat} {w : Shared} (writing : Writing size p d n w) :
    Tested size p d n (w.mem.indexData d) (w.step p k (.load (.indexData d))) :=
  ⟨⟨writing.books.load _, fun room => writing.room room.2⟩, UInt32.le_refl _, Fresh.of_load w,
    fun room => writing.room room.2⟩

/-- The counter stored at the end of a write: no lower than what was loaded, no higher than
    the size, and more by the length of the write if that found room. -/
theorem count_in_does {α : Type} {Q : α → Shared → Prop} {i v : UInt32} {next : Code α}
    (here : k.channel = d) (write : k.IsWrite) (top : v ≤ size d) (more : i ≤ v)
    (exact_ : i.toNat + k.writes ≤ (size d).toNat → v.toNat = i.toNat + k.writes)
    (later : Does ρ size start p k (Writing size p d 0) next Q) :
    Does ρ size start p k (Tested size p d k.writes i) (.store (.indexData d) v next) Q := by
  refine Triple.store (Tested.stable used role _ _) (fun w inv tested => ?_) later
  have counted : countedBy p d ⟨p, k, w.mem, .store (.indexData d) v⟩ = k.writes := by
    simp [countedBy, write, here]
  have own : ∀ q e, releasedBy q e ⟨p, k, w.mem, .store (.indexData d) v⟩ = 0 := by
    intro q e
    simp [releasedBy, write]
  refine ⟨nofun, inv.store_index here top ?_, ?_, ?_⟩
  · intro room undisturbed unmoved
    have before := inv.counter d used room undisturbed
    have sum := exact_ (tested.fits room)
    simp only [World.step, total_cons, own, Nat.zero_add]
    rw [role] at before ⊢
    rw [counted, sum, ← before, tested.fresh unmoved]
    omega
  · intro q other
    exact rely_of_index other (fun same => absurd (same.symm.trans role) other)
      fun _ => UInt32.le_trans tested.below more
  · refine ⟨tested.writing.books.own k _ (fun e => ?_) (by simp [removedBy, own]), fun _ => ?_⟩
    · by_cases same : e = d
      · subst same
        rw [counted]
        simp [only, storedBy]
      · have none := accounts_of_elsewhere (p := p) (w := w) here same p (.store (.indexData d) v)
        rw [none.1]
        simp [only, storedBy, Function.update_of_ne same]
    · change (Function.update w.mem.indexData d v d).toNat + 0 ≤ _
      rw [Function.update_self]
      exact UInt32.le_iff_toNat_le.mp top

omit role in
theorem Tested.reload {n : Nat} {i : UInt32} {α : Type} {Q : α → Shared → Prop}
    {next : UInt32 → Code α} (stable : Stable (bridge ρ size start) p (Tested size p d n i))
    (later : ∀ j, j ≤ i → j ≤ size d → Does ρ size start p k (Tested size p d n j) (next j) Q) :
    Does ρ size start p k (Tested size p d n i) (.load (.indexData d) next) Q :=
  Triple.load stable (fun j => j ≤ i ∧ j ≤ size d) (Tested size p d n) (fun _ _ _ => nofun)
    (fun _ inv tested => ⟨⟨tested.below, inv.index d used⟩, Tested.of_load tested.writing⟩)
    fun j bounds => later j bounds.1 bounds.2

omit used role in
theorem Tested.read_size {n : Nat} {i : UInt32} {α : Type} {Q : α → Shared → Prop}
    {next : UInt32 → Code α} (stable : Stable (bridge ρ size start) p (Tested size p d n i))
    (later : Does ρ size start p k (Tested size p d n i) (next (size d)) Q) :
    Does ρ size start p k (Tested size p d n i) (.load (.channelSize d) next) Q := by
  refine Triple.load stable (fun m => m = size d) (fun _ => Tested size p d n i)
    (fun _ _ _ => nofun) (fun _ inv tested => ⟨congrFun inv.sizes d, tested.load nofun⟩) ?_
  rintro m rfl
  exact later

theorem Writing.test {n : Nat} {α : Type} {Q : α → Shared → Prop} {next : UInt32 → Code α}
    (later : ∀ i, i ≤ size d → Does ρ size start p k (Tested size p d n i) (next i) Q) :
    Does ρ size start p k (Writing size p d n) (.load (.indexData d) next) Q :=
  Triple.load (Writing.stable used role n) (fun i => i ≤ size d) (Tested size p d n)
    (fun _ _ _ => nofun) (fun _ inv writing => ⟨inv.index d used, Tested.of_load writing⟩) later

theorem driver_countUp_does (here : k.channel = d) (write : k.IsWrite) (one : k.writes = 1) :
    Does ρ size start p k (Writing size p d 1) (Driver.countUp d)
      fun _ => Writing size p d 0 := by
  have after : Stable (bridge ρ size start) p (Writing size p d 0) := Writing.stable used role 0
  rw [← one]
  apply Writing.test used role
  intro i _
  apply Tested.read_size (Tested.stable used role _ i)
  change Does ρ size start p k _ (if i < size d then _ else _) _
  split
  · rename_i less
    apply Tested.reload used (Tested.stable used role _ i)
    intro j le _
    have lt : j < size d := UInt32.lt_of_le_of_lt le less
    have next := toNat_add_one lt
    refine count_in_does used role here write ?_ ?_ ?_ (Triple.ret after fun _ _ here => here)
    · rw [UInt32.le_iff_toNat_le, next]
      exact UInt32.lt_iff_toNat_lt.mp lt
    · rw [UInt32.le_iff_toNat_le, next]
      exact Nat.le_succ _
    · intro _
      rw [next, one]
  · rename_i full
    -- the byte found no room, so the accounts promise nothing about this write
    refine Triple.ret (Tested.stable used role _ i) fun w inv tested => ?_
    have exceeded : ¬ FindsRoom size d w.log := by
      intro room
      have fits := tested.fits room
      exact full (UInt32.lt_iff_toNat_lt.mpr (by omega))
    refine ⟨⟨fun e room => ?_, tested.writing.books.read⟩, fun room => absurd room exceeded⟩
    by_cases same : e = d
    · subst same
      exact absurd room exceeded
    · have before := tested.writing.books.written e room
      simp only [only, Function.update_of_ne same] at before ⊢
      exact before

theorem firmware_countUp_does {length : Int32} (here : k.channel = d) (write : k.IsWrite)
    (nonneg : 0 ≤ length) (small : (size d).toNat < 2 ^ 31)
    (writes : k.writes = length.toNatClampNeg) :
    Does ρ size start p k (Writing size p d length.toNatClampNeg) (Firmware.countUp d length)
      fun _ => Writing size p d 0 := by
  have after : Stable (bridge ρ size start) p (Writing size p d 0) := Writing.stable used role 0
  rw [← writes]
  apply Writing.test used role
  intro i top
  have bound := UInt32.le_iff_toNat_le.mp top
  have sum := toNat_add_length nonneg (show i.toNat < 2 ^ 31 by omega)
  apply Tested.read_size (Tested.stable used role _ i)
  change Does ρ size start p k _ (if i + length.toUInt32 < size d then _ else _) _
  split
  · rename_i less
    have room := UInt32.lt_iff_toNat_lt.mp less
    apply Tested.reload used (Tested.stable used role _ i)
    intro j le _
    have lower := UInt32.le_iff_toNat_le.mp le
    have next := toNat_add_length nonneg (show j.toNat < 2 ^ 31 by omega)
    refine count_in_does used role here write ?_ ?_ ?_ (Triple.ret after fun _ _ here => here)
    · rw [UInt32.le_iff_toNat_le, next]
      omega
    · rw [UInt32.le_iff_toNat_le, next]
      omega
    · intro _
      rw [next, writes]
  · rename_i full
    have filled : ¬ (i + length.toUInt32).toNat < (size d).toNat :=
      fun less => full (UInt32.lt_iff_toNat_lt.mpr less)
    apply Tested.read_size (Tested.stable used role _ i)
    refine count_in_does used role here write (UInt32.le_refl _) top ?_
      (Triple.ret after fun _ _ here => here)
    intro fits
    omega

theorem Writing.advance (j : Nat) :
    Does ρ size start p k (Writing size p d j) (advanceTail d) fun _ => Writing size p d j :=
  advanceTail_does used (Writing.steady used role j) (Writing.stable used role j)
    fun w v writing => ⟨writing.books.own k (.store (.tail d) v) (by simp [storedBy, countedBy])
      (by simp [removedBy, releasedBy]), fun room => writing.room room.2⟩

theorem driver_write_does {b : UInt8} (here : k.channel = d) (write : k.IsWrite)
    (one : k.writes = 1) : Does ρ size start p k (Writing size p d 0) (Driver.writeBuffer d b)
      fun _ => Writing size p d 0 := by
  have steady : ∀ j, Steady (bridge ρ size start) p k (Writing size p d j) :=
    Writing.steady used role
  refine (tailCell_does used (steady 0)).bind fun x => Does.in_ring fun inside => ?_
  apply store_data_does used role here write inside
  refine (driver_countUp_does used role here write one).bind fun _ => ?_
  refine (printkRing_does here (steady 0) (tailCell_does used (steady 0))).bind fun _ => ?_
  exact Writing.advance used role 0

theorem firmware_writeLoop_does (here : k.channel = d) (write : k.IsWrite) (i j : Nat) :
    Does ρ size start p k (Writing size p d j) (Firmware.writeLoop d i)
      fun _ => Writing size p d (j + i) := by
  induction i generalizing j with
  | zero => exact Triple.ret (Writing.stable used role j) fun _ _ here => here
  | succ i ih =>
    have steady : ∀ j, Steady (bridge ρ size start) p k (Writing size p d j) :=
      Writing.steady used role
    refine (tailCell_does used (steady j)).bind fun x => Does.in_ring fun inside => ?_
    refine Triple.skip (steady j) (fun _ _ _ => nofun) fun b => ?_
    apply store_data_does used role here write inside
    refine (Writing.advance used role (j + 1)).bind fun _ => ?_
    have rest := ih (j + 1)
    rwa [Nat.add_assoc, Nat.add_comm 1 i] at rest

theorem firmware_write_does {length : Int32} (here : k.channel = d) (write : k.IsWrite)
    (nonneg : 0 ≤ length) (small : (size d).toNat < 2 ^ 31)
    (writes : k.writes = length.toNatClampNeg) :
    Does ρ size start p k (Writing size p d 0) (Firmware.writeBuffer d length)
      fun _ => Writing size p d 0 := by
  refine (firmware_writeLoop_does used role here write _ 0).bind fun _ => ?_
  rw [Nat.zero_add]
  refine (firmware_countUp_does used role here write nonneg small writes).bind fun _ => ?_
  exact Triple.ret (Writing.stable used role 0) fun _ _ here => here

end writes

/-- Inside a read of `d`: `l` bytes are removed and not yet counted out (or counted out and
    not yet removed), and the counter is at least `low`. -/
structure Reading (size : Channel → UInt32) (p : Side) (d : Channel) (l : Int) (low : Nat)
    (w : Shared) : Prop where
  books : Books size p 0 (only d l) w
  low : low ≤ (w.mem.indexData d).toNat

/-- Inside a read, between the last load of the counter, which found `i`, and its store. -/
structure Claimed (size : Channel → UInt32) (p : Side) (d : Channel) (l : Int) (i : UInt32)
    (w : Shared) : Prop where
  books : Books size p 0 (only d l) w
  above : i ≤ w.mem.indexData d
  fresh : Fresh p d i w

section reads
variable {ρ : Roles} {size start : Channel → UInt32} {p : Side} {k : Op} {d : Channel}
  {α : Type} {Q : α → Shared → Prop} (used : ρ.uses d) (role : ρ.reader d = p)
include used role

theorem Reading.stable (l : Int) (low : Nat) :
    Stable (bridge ρ size start) p (Reading size p d l low) := by
  intro w v reading moved
  have before := reading.low
  have higher := UInt32.le_iff_toNat_le.mp (moved.raises d used role)
  exact ⟨reading.books.rely moved, by omega⟩

theorem Reading.steady (l : Int) (low : Nat) :
    Steady (bridge ρ size start) p k (Reading size p d l low) :=
  ⟨Reading.stable used role l low, fun _ c reading => ⟨reading.books.load c, reading.low⟩⟩

theorem Claimed.stable (l : Int) (i : UInt32) :
    Stable (bridge ρ size start) p (Claimed size p d l i) := fun _ _ claimed moved =>
  ⟨claimed.books.rely moved, UInt32.le_trans claimed.above (moved.raises d used role),
    claimed.fresh.rely moved⟩

theorem Reading.claim {l : Int} {low : Nat} {next : UInt32 → Code α}
    (later : ∀ i, low ≤ i.toNat → i ≤ size d →
      Does ρ size start p k (Claimed size p d l i) (next i) Q) :
    Does ρ size start p k (Reading size p d l low) (.load (.indexData d) next) Q :=
  Triple.load (Reading.stable used role l low) (fun i => low ≤ i.toNat ∧ i ≤ size d)
    (Claimed size p d l) (fun _ _ _ => nofun)
    (fun w inv reading => ⟨⟨reading.low, inv.index d used⟩, reading.books.load _,
      UInt32.le_refl _, Fresh.of_load w⟩)
    fun i bounds => later i bounds.1 bounds.2

/-- The counter stored by a read: what was loaded less the bytes the call reads. -/
theorem count_out_does {l : Int} {i v : UInt32} {next : Code α} (here : k.channel = d)
    (read : ¬ k.IsWrite) (top : i ≤ size d) (less : v.toNat + k.reads = i.toNat)
    (later : Does ρ size start p k (Reading size p d (l - k.reads) 0) next Q) :
    Does ρ size start p k (Claimed size p d l i) (.store (.indexData d) v next) Q := by
  refine Triple.store (Claimed.stable used role _ _) (fun w inv claimed => ?_) later
  have lower : v ≤ i := UInt32.le_iff_toNat_le.mpr (by omega)
  have released : releasedBy p d ⟨p, k, w.mem, .store (.indexData d) v⟩ = k.reads := by
    simp [releasedBy, read, here]
  have own : ∀ q e, countedBy q e ⟨p, k, w.mem, .store (.indexData d) v⟩ = 0 := by
    intro q e
    simp [countedBy, read]
  refine ⟨nofun, inv.store_index here (UInt32.le_trans lower top) ?_, ?_, ?_⟩
  · intro room undisturbed unmoved
    have before := inv.counter d used room undisturbed
    simp only [World.step, total_cons, own, Nat.zero_add]
    rw [role] at before ⊢
    rw [released, ← before, claimed.fresh unmoved]
    omega
  · intro q other
    exact rely_of_index other (fun _ => UInt32.le_trans lower claimed.above)
      fun same => absurd (same.symm.trans role) other
  · refine ⟨claimed.books.own k _ (by simp [storedBy, own]) (fun e => ?_), Nat.zero_le _⟩
    by_cases same : e = d
    · subst same
      rw [released]
      simp [only, removedBy]
    · have none := accounts_of_elsewhere (p := p) (w := w) here same p (.store (.indexData d) v)
      rw [none.2]
      simp [only, removedBy, Function.update_of_ne same]

theorem Reading.advance (here : k.channel = d) (read : ¬ k.IsWrite) (l : Int) (low : Nat) :
    Does ρ size start p k (Reading size p d l low) (advanceHead d)
      fun _ => Reading size p d (l + 1) low := by
  refine advanceHead_does used (Reading.steady used role l low) (Reading.stable used role _ low)
    fun w v reading => ⟨reading.books.own k (.store (.head d) v) (by simp [storedBy, countedBy])
      (fun e => ?_), reading.low⟩
  by_cases same : e = d
  · subst same
    simp [only, removedBy, releasedBy, read, here]
  · simp [only, removedBy, releasedBy, here, Ne.symm same, Function.update_of_ne same]

theorem driver_read_does (here : k.channel = d) (read : ¬ k.IsWrite) (one : k.reads = 1) :
    Does ρ size start p k (Reading size p d 0 0) (Driver.readBuffer d)
      fun _ => Reading size p d 0 0 := by
  have steady : ∀ l low, Steady (bridge ρ size start) p k (Reading size p d l low) :=
    Reading.steady used role
  refine Triple.load (steady 0 0).stable (fun _ => True)
    (fun i => Reading size p d 0 i.toNat) (fun _ _ _ => nofun)
    (fun w _ reading => ⟨trivial, reading.books.load _, Nat.le_refl _⟩) fun i _ => ?_
  change Does ρ size start p k _ (if i ≠ 0 then _ else _) _
  split
  · rename_i some
    refine (headCell_does used (steady 0 _)).bind fun x => Does.in_ring fun inside => ?_
    refine Triple.skip (steady 0 _) (fun _ _ _ y mem => ?_) fun value => ?_
    · rw [← Option.some.inj mem, here]
      exact inside
    apply Reading.claim used role
    intro j low top
    have positive := toNat_pos some
    have nonzero : j ≠ 0 := by
      rintro rfl
      rw [UInt32.toNat_zero] at low
      omega
    have count := toNat_sub_one nonzero
    have lag : Reading size p d (0 - (k.reads : Int)) 0 = Reading size p d (-1) 0 := by
      rw [one]
      rfl
    apply count_out_does used role here read top (by rw [count, one]; omega)
    rw [lag]
    refine (printkRing_does here (steady (-1) 0) (headCell_does used (steady (-1) 0))).bind
      fun _ => ?_
    refine (Reading.advance used role here read (-1) 0).bind fun _ => ?_
    exact Triple.ret (Reading.stable used role _ 0) fun _ _ here => here
  · exact Triple.ret (steady 0 _).stable fun w _ reading => ⟨reading.books, Nat.zero_le _⟩

theorem firmware_readLoop_does (here : k.channel = d) (read : ¬ k.IsWrite) (low : Nat)
    (left i : Nat) (l : Int) : Does ρ size start p k (Reading size p d l low)
      (Firmware.readLoop d left i) fun _ => Reading size p d (l + left) low := by
  induction left generalizing i l with
  | zero =>
    refine Triple.ret (Reading.stable used role l low) fun w _ reading => ?_
    rwa [Int.natCast_zero, Int.add_zero]
  | succ left ih =>
    have steady : Steady (bridge ρ size start) p k (Reading size p d l low) :=
      Reading.steady used role l low
    refine (headCell_does used steady).bind fun x => Does.in_ring fun inside => ?_
    refine Triple.skip steady (fun _ _ _ y mem => ?_) fun value => ?_
    · rw [← Option.some.inj mem, here]
      exact inside
    refine Does.spare_store (T := Reading size p d l low) steady.stable trivial nofun
      (fun w inv => inv.set_pruData i value)
      (fun w _ reading => ⟨reading.books.own k _ (by simp [storedBy, countedBy])
        (by simp [removedBy, releasedBy]), reading.low⟩) ?_
    refine (Reading.advance used role here read l low).bind fun _ => ?_
    have rest := ih (i + 1) (l + 1)
    have total : l + 1 + (left : Int) = l + ((left + 1 : Nat) : Int) := by omega
    rwa [total] at rest

theorem firmware_read_does {length : Int32} (here : k.channel = d) (read : ¬ k.IsWrite)
    (nonneg : 0 ≤ length) (small : (size d).toNat < 2 ^ 31)
    (reads : k.reads = length.toNatClampNeg) :
    Does ρ size start p k (Reading size p d 0 0) (Firmware.readBuffer d length)
      fun _ => Reading size p d 0 0 := by
  refine Triple.load (Reading.stable used role 0 0) (fun i => i ≤ size d)
    (fun i => Reading size p d 0 i.toNat) (fun _ _ _ => nofun)
    (fun w inv reading => ⟨inv.index d used, reading.books.load _, Nat.le_refl _⟩) fun i top => ?_
  change Does ρ size start p k _ (if i.toInt32 - length ≥ 0 then _ else _) _
  split
  · rename_i guard
    have bound := UInt32.le_iff_toNat_le.mp top
    have enough := (guard_iff nonneg (by omega)).mp guard
    refine (firmware_readLoop_does used role here read i.toNat _ 0 0).bind fun _ => ?_
    apply Reading.claim used role
    intro j low topj
    have count := toNat_sub_length nonneg (show length.toNatClampNeg ≤ j.toNat by omega)
    have lag : Reading size p d (0 + (length.toNatClampNeg : Int) - (k.reads : Int)) 0 =
        Reading size p d 0 0 := by
      rw [reads]
      congr 1
      omega
    apply count_out_does used role here read topj (by rw [count, reads]; omega)
    rw [lag]
    exact Triple.ret (Reading.stable used role 0 0) fun _ _ here => here
  · exact Triple.ret (Reading.stable used role 0 _) fun w _ reading =>
      ⟨reading.books, Nat.zero_le _⟩

end reads

end PruBridge
