import PruBridge.Delivery

/-!
What each call does for the bytes of its channel, access by access: a write puts its bytes
behind the tail, a read takes the bytes at the head before it moves the head.
-/
namespace PruBridge
open AtomicProgram MachineWords

/-- How far a call is: bytes stored and not yet counted, and not yet behind the tail; bytes
    removed before they are counted out, and taken before they are removed; and what the
    counter is known to hold. -/
structure Stage where
  uncounted : Nat := 0
  unplaced : Nat := 0
  lag : Int := 0
  held : Nat := 0
  low : Nat := 0

structure Amid (ρ : Roles) (p : Side) (d : Channel) (δ : Stage) (w : Shared) : Prop where
  others : ∀ e, e ≠ d → (tally p e w.log).Even
  counted : (tally p d w.log).counted + δ.uncounted ≤ (tally p d w.log).stored
  advanced : (tally p d w.log).stored = (tally p d w.log).advanced + δ.unplaced
  removed : ((tally p d w.log).removed : Int) = (tally p d w.log).released + δ.lag
  taken : (tally p d w.log).taken = (tally p d w.log).removed + δ.held
  low : ρ.reader d = p → Sound ρ d w.log → δ.low ≤ (w.mem.indexData d).toNat

abbrev Carries (ρ : Roles) (size start : Channel → UInt32) (p : Side) (k : Op) {α : Type}
    (S : Shared → Prop) (body : Code α) (Q : α → Shared → Prop) : Prop :=
  Triple (delivery ρ size start) p k S body Q

section calls
variable {ρ : Roles} {size start : Channel → UInt32} {p : Side} {k : Op} {d : Channel}
  {δ : Stage} {α : Type} {S : Shared → Prop} {Q : α → Shared → Prop}

theorem Amid.of_even {w : Shared} (even : ∀ e, (tally p e w.log).Even) : Amid ρ p d {} w where
  others e _ := even e
  counted := (even d).counted
  advanced := (even d).advanced
  removed := by
    rw [(even d).removed]
    exact (Int.add_zero _).symm
  taken := (even d).taken
  low _ _ := Nat.zero_le _

theorem Amid.even {w : Shared} {low : Nat} (amid : Amid ρ p d { low := low } w) (e : Channel) :
    (tally p e w.log).Even := by
  by_cases same : e = d
  · subst same
    refine ⟨amid.counted, amid.advanced, ?_, amid.taken⟩
    have removed := amid.removed
    simp only at removed
    omega
  · exact amid.others e same

theorem Amid.weaken {w : Shared} (amid : Amid ρ p d δ w) {uncounted low : Nat}
    (fewer : uncounted ≤ δ.uncounted) (lower : low ≤ δ.low) :
    Amid ρ p d { δ with uncounted := uncounted, low := low } w where
  others := amid.others
  counted := Nat.le_trans (Nat.add_le_add_left fewer _) amid.counted
  advanced := amid.advanced
  removed := amid.removed
  taken := amid.taken
  low role sound := Nat.le_trans lower (amid.low role sound)

theorem Amid.trust (used : ρ.uses d) {w v : Shared} (amid : Amid ρ p d δ w)
    (moved : Trust ρ p w v) : Amid ρ p d δ v := by
  obtain ⟨new, eq, -⟩ := moved.log
  refine ⟨fun e other => ?_, ?_, ?_, ?_, ?_, fun role sound => ?_⟩
  · rw [moved.tally e]
    exact amid.others e other
  · rw [moved.tally d]
    exact amid.counted
  · rw [moved.tally d]
    exact amid.advanced
  · rw [moved.tally d]
    exact amid.removed
  · rw [moved.tally d]
    exact amid.taken
  · have raised := UInt32.le_iff_toNat_le.mp (moved.raises d used role sound)
    rw [eq] at sound
    have before := amid.low role (sound_append sound)
    omega

theorem Amid.stable (used : ρ.uses d) :
    Stable (delivery ρ size start) p (Amid ρ p d δ) := fun _ _ amid moved =>
  amid.trust used moved

/-- A step of the call's own party, by what it adds to the tally of its channel. -/
theorem Amid.own {δ' : Stage} {w : Shared} {a : Access Cell Cell.Val} (amid : Amid ρ p d δ w)
    (here : k.channel = d) {t : Tally}
    (tallied : tally p d (⟨p, k, w.mem, a⟩ :: w.log) = t)
    (counted : t.counted + δ'.uncounted ≤ t.stored)
    (advanced : t.stored = t.advanced + δ'.unplaced)
    (removed : (t.removed : Int) = t.released + δ'.lag) (taken : t.taken = t.removed + δ'.held)
    (low : ρ.reader d = p → Sound ρ d w.log →
      δ'.low ≤ ((a.perform w.mem).indexData d).toNat) : Amid ρ p d δ' (w.step p k a) := by
  subst tallied
  refine ⟨fun e other => ?_, counted, advanced, removed, taken, fun role sound => ?_⟩
  · have away : k.channel ≠ e := by
      rw [here]
      exact Ne.symm other
    have still : tally p e (⟨p, k, w.mem, a⟩ :: w.log) = tally p e w.log :=
      tally_of_other (Or.inr away)
    exact still ▸ amid.others e other
  · exact low role sound.2.2.2

/-- What a call knows of a cell that only its own party moves. -/
structure Pins (ρ : Roles) (p : Side) (d : Channel) (δ : Stage) (f : Ram → UInt32) (v : UInt32)
    (w : Shared) : Prop where
  amid : Amid ρ p d δ w
  value : f w.mem = v

theorem Amid.load {w : Shared} (amid : Amid ρ p d δ w) (here : k.channel = d) {c : Cell}
    (plain : ∀ x, c ≠ .data x) : Amid ρ p d δ (w.step p k (.load c)) :=
  amid.own here (tally_load plain) amid.counted amid.advanced amid.removed amid.taken amid.low

/-- A load of a word, at any point of a call. -/
theorem Carries.read {c : Cell} {next : c.Val → Code α} (plain : ∀ x, c ≠ .data x)
    (stable : Stable (delivery ρ size start) p S) (known : c.Val → Prop)
    (T : c.Val → Shared → Prop)
    (found : ∀ w, Rings ρ size start w.mem w.log → S w → known (w.mem.get c) ∧
      T (w.mem.get c) (w.step p k (.load c)))
    (later : ∀ v, known v → Carries ρ size start p k (T v) (next v) Q) :
    Carries ρ size start p k S (.load c next) Q :=
  Triple.load stable known T (fun _ _ _ x same => absurd (Access.load.inj same) (plain x))
    found later

theorem Carries.skip (used : ρ.uses d) (here : k.channel = d) {c : Cell} {next : c.Val → Code α}
    (plain : ∀ x, c ≠ .data x)
    (later : ∀ v, Carries ρ size start p k (Amid ρ p d δ) (next v) Q) :
    Carries ρ size start p k (Amid ρ p d δ) (.load c next) Q :=
  Carries.read plain (Amid.stable used) (fun _ => True) (fun _ => Amid ρ p d δ)
    (fun _ _ amid => ⟨trivial, amid.load here plain⟩) fun v _ => later v

section pinned
variable {f : Ram → UInt32} (mine : ∀ w v, Trust ρ p w v → f v.mem = f w.mem)
include mine

theorem Pins.stable (used : ρ.uses d) (v : UInt32) :
    Stable (delivery ρ size start) p (Pins ρ p d δ f v) := fun _ _ pins moved =>
  ⟨pins.amid.trust used moved, (mine _ _ moved).trans pins.value⟩

end pinned

/-- A load of a ring byte that takes nothing: by a write, or after the byte is counted out. -/
theorem Carries.peek (used : ρ.uses d) (here : k.channel = d) (quiet : k.IsWrite ∨ δ.lag < 0)
    {x : UInt32} {next : UInt8 → Code α}
    (later : ∀ v, Carries ρ size start p k (Amid ρ p d δ) (next v) Q) :
    Carries ρ size start p k (Amid ρ p d δ) (.load (.data x) next) Q := by
  have ahead : ∀ w, Amid ρ p d δ w → ¬ k.IsWrite →
      ¬ total (releasedBy p d) w.log ≤ total (removedBy p d) w.log := by
    intro w amid read settled
    have lag := amid.removed
    have behind := quiet.resolve_left read
    simp only [tally] at lag
    omega
  refine Triple.load (Amid.stable used) (fun _ => True) (fun _ => Amid ρ p d δ) ?_ ?_
    fun v _ => later v
  · intro w _ amid y _ read settled
    rw [here] at settled
    exact absurd settled (ahead w amid read)
  · intro w _ amid
    have not : ¬ Takes p d ⟨p, k, w.mem, .load (.data x)⟩ w.log := by
      rintro ⟨-, read, -, settled⟩
      exact ahead w amid read settled
    have same := tally_data_load (p := p) (k := k) (d := d) (m := w.mem) w.log x
    rw [if_neg not] at same
    exact ⟨trivial, amid.own here same amid.counted amid.advanced amid.removed amid.taken amid.low⟩

theorem printkRing_carries (used : ρ.uses d) (here : k.channel = d)
    (quiet : k.IsWrite ∨ δ.lag < 0) {cell : Code UInt32}
    (does : Carries ρ size start p k (Amid ρ p d δ) cell fun _ => Amid ρ p d δ) :
    Carries ρ size start p k (Amid ρ p d δ) (Driver.printkRing d cell) fun _ => Amid ρ p d δ := by
  refine does.bind fun x => Carries.peek used here quiet fun _ => does.bind fun _ => ?_
  exact Carries.skip used here (c := .indexData d) nofun fun _ =>
    Triple.ret (Amid.stable used) fun _ _ amid => amid

theorem Rings.tail_lt {m : Ram} {log : List Entry} (rings : Rings ρ size start m log)
    (regions : Regions ρ size start) (used : ρ.uses d) : m.tail d < size d := by
  rw [UInt32.lt_iff_toNat_lt, rings.tail d used]
  exact Nat.mod_lt _ (regions.pos d used)

theorem Rings.head_lt {m : Ram} {log : List Entry} (rings : Rings ρ size start m log)
    (regions : Regions ρ size start) (used : ρ.uses d) : m.head d < size d := by
  rw [UInt32.lt_iff_toNat_lt, rings.head d used]
  exact Nat.mod_lt _ (regions.pos d used)

section writes
variable (used : ρ.uses d) (here : k.channel = d) (role : ρ.writer d = p)
include used here role

theorem tailCell_carries : Carries ρ size start p k (Amid ρ p d δ) (tailCell d)
    fun x => Pins ρ p d δ (fun m => start d + m.tail d) x := by
  refine Carries.read (c := .bufferStart d) nofun (Amid.stable used) (fun v => v = start d)
    (fun _ => Amid ρ p d δ)
    (fun w rings amid => ⟨congrFun rings.starts d, amid.load here nofun⟩) ?_
  rintro v rfl
  refine Carries.read (c := .tail d) nofun (Amid.stable used) (fun _ => True)
    (Pins ρ p d δ fun m => m.tail d)
    (fun w _ amid => ⟨trivial, amid.load here nofun, rfl⟩) fun t _ => ?_
  refine Triple.ret (Pins.stable (fun _ _ moved => moved.tail d used role) used t)
    fun w _ pins => ⟨pins.amid, ?_⟩
  exact congrArg (start d + ·) pins.value

theorem advanceTail_carries (regions : Regions ρ size start) (write : k.IsWrite) {j : Nat} :
    Carries ρ size start p k (Amid ρ p d { uncounted := j, unplaced := 1 }) (advanceTail d)
      fun _ => Amid ρ p d { uncounted := j } := by
  have stable : ∀ t, Stable (delivery ρ size start) p
      (Pins ρ p d { uncounted := j, unplaced := 1 } (fun m => m.tail d) t) :=
    Pins.stable (fun _ _ moved => moved.tail d used role) used
  refine Carries.read (c := .tail d) nofun (Amid.stable used) (fun t => t < size d)
    (Pins ρ p d _ fun m => m.tail d)
    (fun w rings amid => ⟨rings.tail_lt regions used, amid.load here nofun, rfl⟩) fun t lt => ?_
  refine Carries.read (c := .channelSize d) nofun (stable t) (fun n => n = size d)
    (fun _ => Pins ρ p d { uncounted := j, unplaced := 1 } (fun m => m.tail d) t)
    (fun w rings pins => ⟨congrFun rings.sizes d, pins.amid.load here nofun, pins.value⟩) ?_
  rintro n rfl
  change Carries ρ size start p k _ (umod (t + 1) (size d) >>= fun t' => store (.tail d) t') _
  rw [umod_pos _ (ne_zero_of_lt lt)]
  refine Triple.store (stable t) (fun w rings pins => ⟨may_store, ?_, fun q other => ?_, ?_⟩)
    (Triple.ret (Amid.stable used) fun _ _ amid => amid)
  · apply rings.set_tail used here write role
    rw [toNat_next lt, pins.value]
  · apply trust_of_step other
    · intro e v same
      cases same
      exact role
    · intro e v same
      cases same
  · have amid := pins.amid
    refine amid.own here (tally_tail here write _) amid.counted ?_ amid.removed amid.taken amid.low
    have placed := amid.advanced
    simp only at placed ⊢
    omega

theorem putData_carries (regions : Regions ρ size start) (write : k.IsWrite) {j : Nat}
    {x : UInt32} {b : UInt8} {next : Code α}
    (later : Carries ρ size start p k (Amid ρ p d { uncounted := j + 1, unplaced := 1 }) next Q) :
    Carries ρ size start p k (Pins ρ p d { uncounted := j } (fun m => start d + m.tail d) x)
      (.store (.data x) b next) Q := by
  have mine : ∀ w v, Trust ρ p w v → start d + v.mem.tail d = start d + w.mem.tail d :=
    fun _ _ moved => congrArg (start d + ·) (moved.tail d used role)
  refine Triple.store (Pins.stable mine used x) (fun w rings pins => ⟨may_store, ?_, ?_, ?_⟩) later
  · exact rings.set_data regions used here write role pins.amid.advanced pins.value.symm b
  · exact fun q other => trust_of_spare other trivial
  · have amid := pins.amid
    have counted := amid.counted
    have placed := amid.advanced
    refine amid.own here (tally_data here write x b) ?_ ?_ amid.removed amid.taken amid.low
    · simp only at counted ⊢
      omega
    · simp only at placed ⊢
      omega

theorem count_in_carries (write : k.IsWrite) {v : UInt32} {a : Nat} {next : Code α}
    (later : Carries ρ size start p k (Amid ρ p d { unplaced := a }) next Q) :
    Carries ρ size start p k (Amid ρ p d { uncounted := k.writes, unplaced := a })
      (.store (.indexData d) v next) Q := by
  refine Triple.store (Amid.stable used) (fun w rings amid => ⟨may_store, ?_, ?_, ?_⟩) later
  · refine rings.spare (a := .store (.indexData d) v) trivial fun e uses => ?_
    by_cases same : e = d
    · subst same
      have counted : countedBy p e ⟨p, k, w.mem, .store (.indexData e) v⟩ = k.writes := by
        simp [countedBy, write, here]
      have enough := amid.counted
      simp only [tally] at enough
      rw [role, counted]
      omega
    · have away : k.channel ≠ e := by
        rw [here]
        exact Ne.symm same
      have none : countedBy (ρ.writer e) e ⟨p, k, w.mem, .store (.indexData d) v⟩ = 0 := by
        simp [countedBy, away]
      rw [none, Nat.zero_add]
      exact rings.counted e uses
  · exact fun q other => trust_of_spare other trivial
  · have counted := amid.counted
    refine amid.own here (tally_count_in here write v) ?_ amid.advanced amid.removed amid.taken
      fun _ _ => Nat.zero_le _
    simp only at counted ⊢
    omega

theorem driver_countUp_carries (write : k.IsWrite) (one : k.writes = 1) :
    Carries ρ size start p k (Amid ρ p d { uncounted := 1, unplaced := 1 }) (Driver.countUp d)
      fun _ => Amid ρ p d { unplaced := 1 } := by
  have after : Stable (delivery ρ size start) p (Amid ρ p d { unplaced := 1 }) :=
    Amid.stable used
  have count : ∀ v, Carries ρ size start p k
      (Amid ρ p d { uncounted := k.writes, unplaced := 1 }) (store (.indexData d) v)
      fun _ => Amid ρ p d { unplaced := 1 } := fun v =>
    count_in_carries used here role write (Triple.ret after fun _ _ amid => amid)
  rw [one] at count
  refine Carries.skip used here (c := .indexData d) nofun fun i => ?_
  refine Carries.skip used here (c := .channelSize d) nofun fun n => ?_
  change Carries ρ size start p k _ (if i < n then _ else _) _
  split
  · exact Carries.skip used here (c := .indexData d) nofun fun j => count (j + 1)
  · refine Triple.ret (Amid.stable used) fun w _ amid => ?_
    exact amid.weaken (Nat.zero_le 1) (Nat.le_refl 0)

theorem driver_write_carries (regions : Regions ρ size start) {b : UInt8} (write : k.IsWrite)
    (one : k.writes = 1) : Carries ρ size start p k (Amid ρ p d {}) (Driver.writeBuffer d b)
      fun _ => Amid ρ p d {} := by
  have cell : ∀ δ, Carries ρ size start p k (Amid ρ p d δ) (tailCell d) fun _ => Amid ρ p d δ :=
    fun δ => (tailCell_carries used here role).strengthen fun _ _ pins => pins.amid
  refine (tailCell_carries used here role).bind fun x => ?_
  apply putData_carries used here role regions write
  refine (driver_countUp_carries used here role write one).bind fun _ => ?_
  refine (printkRing_carries used here (Or.inl write) (cell _)).bind fun _ => ?_
  exact advanceTail_carries used here role regions write

theorem firmware_writeLoop_carries (regions : Regions ρ size start) (write : k.IsWrite)
    (i j : Nat) : Carries ρ size start p k (Amid ρ p d { uncounted := j })
      (Firmware.writeLoop d i) fun _ => Amid ρ p d { uncounted := j + i } := by
  induction i generalizing j with
  | zero => exact Triple.ret (Amid.stable used) fun _ _ amid => amid
  | succ i ih =>
    refine (tailCell_carries used here role).bind fun x => ?_
    have mine : ∀ w v, Trust ρ p w v → start d + v.mem.tail d = start d + w.mem.tail d :=
      fun _ _ moved => congrArg (start d + ·) (moved.tail d used role)
    refine Carries.read (c := .pruData (i + 1)) nofun (Pins.stable mine used x) (fun _ => True)
      (fun _ => Pins ρ p d { uncounted := j } (fun m => start d + m.tail d) x)
      (fun w _ pins => ⟨trivial, pins.amid.load here nofun, pins.value⟩) fun b _ => ?_
    apply putData_carries used here role regions write
    refine (advanceTail_carries used here role regions write).bind fun _ => ?_
    have rest := ih (j + 1)
    rwa [Nat.add_assoc, Nat.add_comm 1 i] at rest

theorem firmware_write_carries (regions : Regions ρ size start) {length : Int32}
    (write : k.IsWrite) (writes : k.writes = length.toNatClampNeg) :
    Carries ρ size start p k (Amid ρ p d {}) (Firmware.writeBuffer d length)
      fun _ => Amid ρ p d {} := by
  have after : Stable (delivery ρ size start) p (Amid ρ p d {}) := Amid.stable used
  have count : ∀ v, Carries ρ size start p k (Amid ρ p d { uncounted := k.writes })
      (store (.indexData d) v) fun _ => Amid ρ p d {} := fun v =>
    count_in_carries used here role write (Triple.ret after fun _ _ amid => amid)
  have done : Carries ρ size start p k (Amid ρ p d {}) (pure 0 : Code Int32)
      fun _ => Amid ρ p d {} := Triple.ret after fun _ _ amid => amid
  refine (firmware_writeLoop_carries used here role regions write _ 0).bind fun _ => ?_
  rw [Nat.zero_add, ← writes]
  refine Triple.bind ?_ fun _ => done
  refine Carries.skip used here (c := .indexData d) nofun fun i => ?_
  refine Carries.skip used here (c := .channelSize d) nofun fun n => ?_
  change Carries ρ size start p k _ (if i + length.toUInt32 < n then _ else _) _
  split
  · exact Carries.skip used here (c := .indexData d) nofun fun j => count _
  · exact Carries.skip used here (c := .channelSize d) nofun fun v => count v

end writes

section reads
variable (used : ρ.uses d) (here : k.channel = d) (role : ρ.reader d = p)
include used here role

theorem headCell_carries : Carries ρ size start p k (Amid ρ p d δ) (headCell d)
    fun x => Pins ρ p d δ (fun m => start d + m.head d) x := by
  refine Carries.read (c := .bufferStart d) nofun (Amid.stable used) (fun v => v = start d)
    (fun _ => Amid ρ p d δ)
    (fun w rings amid => ⟨congrFun rings.starts d, amid.load here nofun⟩) ?_
  rintro v rfl
  refine Carries.read (c := .head d) nofun (Amid.stable used) (fun _ => True)
    (Pins ρ p d δ fun m => m.head d)
    (fun w _ amid => ⟨trivial, amid.load here nofun, rfl⟩) fun t _ => ?_
  refine Triple.ret (Pins.stable (fun _ _ moved => moved.head d used role) used t)
    fun w _ pins => ⟨pins.amid, ?_⟩
  exact congrArg (start d + ·) pins.value

/-- The byte at the head is the next one of those stored, while a read takes no more than the
    counter held when it looked. -/
theorem takes_next {w : Shared} {x : UInt32} (rings : Rings ρ size start w.mem w.log)
    (pins : Pins ρ p d δ (fun m => start d + m.head d) x w) (first : δ.held = 0)
    (ahead : δ.lag < δ.low) : TakesNext ρ size p k x w := by
  rw [TakesNext, here]
  intro _ _
  have amid := pins.amid
  have taken := amid.taken
  have lag := amid.removed
  rw [first] at taken
  simp only [tally] at taken lag
  refine ⟨taken, fun room sound exact_ => ?_⟩
  have low := amid.low role sound
  have most := stored_le room sound
  have counted := rings.counted d used
  rw [role] at most
  have inside : total (removedBy p d) w.log < (storedList (ρ.writer d) d w.log).length := by
    rw [storedList_length]
    omega
  rw [List.getElem?_eq_getElem inside, ← pins.value, ← ofNat_word (rings.head d used), role]
  congr 1
  apply Eq.symm
  apply rings.cells d used _ _ (List.getElem?_eq_getElem inside)
  rw [storedList_length]
  omega

theorem takeData_carries (read : ¬ k.IsWrite) {x : UInt32} {next : UInt8 → Code α}
    {l : Int} {low : Nat} (behind : 0 ≤ l) (ahead : l < low)
    (later : ∀ v, Carries ρ size start p k (Amid ρ p d { lag := l, held := 1, low := low })
      (next v) Q) :
    Carries ρ size start p k (Pins ρ p d { lag := l, low := low } (fun m => start d + m.head d) x)
      (.load (.data x) next) Q := by
  have mine : ∀ w v, Trust ρ p w v → start d + v.mem.head d = start d + w.mem.head d :=
    fun _ _ moved => congrArg (start d + ·) (moved.head d used role)
  refine Triple.load (Pins.stable mine used x) (fun _ => True)
    (fun _ => Amid ρ p d { lag := l, held := 1, low := low }) ?_ ?_ fun v _ => later v
  · intro w rings pins y same
    cases same
    exact takes_next used here role rings pins rfl ahead
  · intro w rings pins
    have amid := pins.amid
    have lag := amid.removed
    have taken := amid.taken
    simp only [tally] at lag
    have takes : Takes p d ⟨p, k, w.mem, .load (.data x)⟩ w.log := ⟨rfl, read, here, by omega⟩
    have tallied := tally_data_load (p := p) (k := k) (d := d) (m := w.mem) w.log x
    rw [if_pos takes] at tallied
    refine ⟨trivial, amid.own here tallied amid.counted amid.advanced amid.removed ?_ amid.low⟩
    simp only at taken ⊢
    omega

theorem advanceHead_carries (regions : Regions ρ size start) (read : ¬ k.IsWrite) {l : Int}
    {low : Nat} : Carries ρ size start p k (Amid ρ p d { lag := l, held := 1, low := low })
      (advanceHead d) fun _ => Amid ρ p d { lag := l + 1, low := low } := by
  have stable : ∀ t, Stable (delivery ρ size start) p
      (Pins ρ p d { lag := l, held := 1, low := low } (fun m => m.head d) t) :=
    Pins.stable (fun _ _ moved => moved.head d used role) used
  refine Carries.read (c := .head d) nofun (Amid.stable used) (fun t => t < size d)
    (Pins ρ p d _ fun m => m.head d)
    (fun w rings amid => ⟨rings.head_lt regions used, amid.load here nofun, rfl⟩) fun t lt => ?_
  refine Carries.read (c := .channelSize d) nofun (stable t) (fun n => n = size d)
    (fun _ => Pins ρ p d { lag := l, held := 1, low := low } (fun m => m.head d) t)
    (fun w rings pins => ⟨congrFun rings.sizes d, pins.amid.load here nofun, pins.value⟩) ?_
  rintro n rfl
  change Carries ρ size start p k _ (umod (t + 1) (size d) >>= fun t' => store (.head d) t') _
  rw [umod_pos _ (ne_zero_of_lt lt)]
  refine Triple.store (stable t) (fun w rings pins => ⟨may_store, ?_, fun q other => ?_, ?_⟩)
    (Triple.ret (Amid.stable used) fun _ _ amid => amid)
  · apply rings.set_head used here read role
    rw [toNat_next lt, pins.value]
  · apply trust_of_step other
    · intro e v same
      cases same
    · intro e v same
      cases same
      exact role
  · have amid := pins.amid
    have removed := amid.removed
    have taken := amid.taken
    refine amid.own here (tally_head here read _) amid.counted amid.advanced ?_ ?_ amid.low
    · simp only at removed ⊢
      omega
    · simp only at taken ⊢
      omega

omit role in
theorem count_out_carries (read : ¬ k.IsWrite) {v : UInt32} {l : Int} {h low : Nat}
    {next : Code α}
    (later : Carries ρ size start p k (Amid ρ p d { lag := l - k.reads, held := h }) next Q) :
    Carries ρ size start p k (Amid ρ p d { lag := l, held := h, low := low })
      (.store (.indexData d) v next) Q := by
  refine Triple.store (Amid.stable used) (fun w rings amid => ⟨may_store, ?_, ?_, ?_⟩) later
  · refine rings.spare (a := .store (.indexData d) v) trivial fun e uses => ?_
    have none : countedBy (ρ.writer e) e ⟨p, k, w.mem, .store (.indexData d) v⟩ = 0 := by
      simp [countedBy, read]
    rw [none, Nat.zero_add]
    exact rings.counted e uses
  · exact fun q other => trust_of_spare other trivial
  · have removed := amid.removed
    refine amid.own here (tally_count_out here read v) amid.counted amid.advanced ?_ amid.taken
      fun _ _ => Nat.zero_le _
    simp only at removed ⊢
    omega

omit role in
/-- The load of the counter by which a read learns how many bytes it may take. -/
theorem look_carries {next : UInt32 → Code α}
    (later : ∀ i, Carries ρ size start p k (Amid ρ p d { low := i.toNat }) (next i) Q) :
    Carries ρ size start p k (Amid ρ p d {}) (.load (.indexData d) next) Q := by
  refine Carries.read (c := .indexData d) nofun (Amid.stable used) (fun _ => True)
    (fun i => Amid ρ p d { low := i.toNat }) (fun w _ amid => ⟨trivial, ?_⟩) fun i _ => later i
  exact amid.own here (tally_load nofun) amid.counted amid.advanced amid.removed amid.taken
    fun _ _ => Nat.le_refl _

theorem driver_read_carries (regions : Regions ρ size start) (read : ¬ k.IsWrite)
    (one : k.reads = 1) : Carries ρ size start p k (Amid ρ p d {}) (Driver.readBuffer d)
      fun _ => Amid ρ p d {} := by
  have after : Stable (delivery ρ size start) p (Amid ρ p d {}) := Amid.stable used
  have cell : ∀ δ, Carries ρ size start p k (Amid ρ p d δ) (headCell d) fun _ => Amid ρ p d δ :=
    fun δ => (headCell_carries used here role).strengthen fun _ _ pins => pins.amid
  refine look_carries used here fun i => ?_
  change Carries ρ size start p k _ (if i ≠ 0 then _ else _) _
  split
  · rename_i some
    have positive := toNat_pos some
    refine (headCell_carries used here role).bind fun x => ?_
    refine takeData_carries used here role read (Int.le_refl 0) (by omega) fun value => ?_
    refine Carries.skip used here (c := .indexData d) nofun fun j => ?_
    have count : ∀ v, Carries ρ size start p k (Amid ρ p d { held := 1, low := i.toNat })
        (store (.indexData d) v) fun _ => Amid ρ p d { lag := 0 - (k.reads : Int), held := 1 } :=
      fun v => count_out_carries used here read (Triple.ret (Amid.stable used)
        fun _ _ amid => amid)
    rw [one] at count
    refine (count (j - 1)).bind fun _ => ?_
    refine (printkRing_carries used here (Or.inr (by decide)) (cell _)).bind fun _ => ?_
    refine (advanceHead_carries used here role regions read).bind fun _ => ?_
    exact Triple.ret after fun _ _ amid => amid
  · exact Triple.ret (Amid.stable used) fun _ _ amid =>
      amid.weaken (Nat.le_refl 0) (Nat.zero_le _)

theorem firmware_readLoop_carries (regions : Regions ρ size start) (read : ¬ k.IsWrite)
    {low : Nat} (left i done : Nat) (enough : done + left ≤ low) :
    Carries ρ size start p k (Amid ρ p d { lag := done, low := low }) (Firmware.readLoop d left i)
      fun _ => Amid ρ p d { lag := (done + left : Nat), low := low } := by
  induction left generalizing i done with
  | zero => exact Triple.ret (Amid.stable used) fun _ _ amid => amid
  | succ left ih =>
    refine (headCell_carries used here role).bind fun x => ?_
    refine takeData_carries used here role read (Int.natCast_nonneg done) (by omega)
      fun value => ?_
    refine Triple.store (Amid.stable used)
      (T := Amid ρ p d { lag := done, held := 1, low := low })
      (fun w rings amid => ⟨may_store, ?_, ?_, ?_⟩) ?_
    · exact rings.set_pruData i value
    · exact fun q other => trust_of_spare other trivial
    · exact amid.own here (tally_pruData i value) amid.counted amid.advanced amid.removed
        amid.taken amid.low
    refine (advanceHead_carries used here role regions read).bind fun _ => ?_
    have rest := ih (i + 1) (done + 1) (by omega)
    rwa [Nat.add_assoc, Nat.add_comm 1 left] at rest

theorem firmware_read_carries (regions : Regions ρ size start) (read : ¬ k.IsWrite)
    {length : Int32} (nonneg : 0 ≤ length) (reads : k.reads = length.toNatClampNeg) :
    Carries ρ size start p k (Amid ρ p d {}) (Firmware.readBuffer d length)
      fun _ => Amid ρ p d {} := by
  have after : Stable (delivery ρ size start) p (Amid ρ p d {}) := Amid.stable used
  refine look_carries used here fun i => ?_
  change Carries ρ size start p k _ (if i.toInt32 - length ≥ 0 then _ else _) _
  split
  · rename_i guard
    have value := toInt_length nonneg
    have enough : 0 + length.toNatClampNeg ≤ i.toNat := by
      have bound := i.toNat_lt
      rcases (signed_guard_iff i length).mp guard with fits | wraps
      · omega
      · omega
    refine (firmware_readLoop_carries used here role regions read _ 0 0 enough).bind fun _ => ?_
    refine Carries.skip used here (c := .indexData d) nofun fun j => ?_
    have count : ∀ v, Carries ρ size start p k
        (Amid ρ p d { lag := k.reads, low := i.toNat }) (store (.indexData d) v)
        fun _ => Amid ρ p d { lag := k.reads - (k.reads : Int) } := fun v =>
      count_out_carries used here read (Triple.ret (Amid.stable used) fun _ _ amid => amid)
    rw [Int.sub_self, reads] at count
    rw [Nat.zero_add]
    exact (count _).bind fun _ => Triple.ret after fun _ _ amid => amid
  · exact Triple.ret (Amid.stable used) fun _ _ amid =>
      amid.weaken (Nat.le_refl 0) (Nat.zero_le _)

end reads

end calls

end PruBridge
