import PruBridge.Bounds
import PruBridge.Payload
import PruBridge.Tracking

/-!
The ring cells that each call reaches, and runs of calls that stay in `ring->data`. C gives no
meaning to an access past its end, and the RAM of the model has cells there that the source
does not have: what is said of the code is said of runs that make no such access.
-/
namespace PruBridge
open AtomicProgram MachineWords

/-- `k` cells of the ring of `c`, from a place on and around its end, are in `ring->data`. -/
def CellsFit (m : Ram) (c : Channel) (place : UInt32) (k : Nat) : Prop :=
  ∀ j < k, (m.bufferStart c +
    UInt32.ofNat ((place.toNat + j) % (m.channelSize c).toNat)).toNat < totalBufferSize

instance (m : Ram) (c : Channel) (place : UInt32) (k : Nat) : Decidable (CellsFit m c place k) :=
  inferInstanceAs (Decidable (∀ j < k, _))

instance {α : Type} (p : Code α) (m : Ram) : Decidable (Driver.InBounds p m) :=
  List.decidableBAll _ _

structure Placed (m : Ram) (c : Channel) : Prop where
  head : m.head c < m.channelSize c
  tail : m.tail c < m.channelSize c

section cells
variable {m : Ram} {c : Channel} {place : UInt32}

theorem cellsFit_zero (place : UInt32) : CellsFit m c place 0 :=
  fun j less => absurd less (Nat.not_lt_zero j)

theorem cellsFit_succ (inside : place < m.channelSize c) (k : Nat) :
    CellsFit m c place (k + 1) ↔ (m.bufferStart c + place).toNat < totalBufferSize ∧
      CellsFit m c ((place + 1) % m.channelSize c) k := by
  have less := UInt32.lt_iff_toNat_lt.mp inside
  have first : UInt32.ofNat ((place.toNat + 0) % (m.channelSize c).toNat) = place := by
    rw [Nat.add_zero, Nat.mod_eq_of_lt less, UInt32.ofNat_toNat]
  have next : ∀ j, (((place + 1) % m.channelSize c).toNat + j) % (m.channelSize c).toNat =
      (place.toNat + (j + 1)) % (m.channelSize c).toNat := by
    intro j
    rw [toNat_next inside, Nat.mod_add_mod, Nat.add_assoc, Nat.add_comm 1 j]
  unfold CellsFit
  simp only [next]
  constructor
  · intro fits
    have here := fits 0 (Nat.succ_pos k)
    rw [first] at here
    exact ⟨here, fun j before => fits (j + 1) (Nat.succ_lt_succ before)⟩
  · rintro ⟨here, later⟩ j before
    cases j with
    | zero =>
      rw [first]
      exact here
    | succ j => exact later j (Nat.lt_of_succ_lt_succ before)

theorem cellsFit_one (inside : place < m.channelSize c) :
    CellsFit m c place 1 ↔ (m.bufferStart c + place).toNat < totalBufferSize := by
  rw [cellsFit_succ inside]
  exact and_iff_left (cellsFit_zero _)

theorem cellsFit_add_iff {place' : UInt32} {j : Nat}
    (moved : place'.toNat = (place.toNat + j) % (m.channelSize c).toNat) (k : Nat) :
    CellsFit m c place (j + k) ↔ CellsFit m c place j ∧ CellsFit m c place' k := by
  have shift : ∀ l, (place'.toNat + l) % (m.channelSize c).toNat =
      (place.toNat + (j + l)) % (m.channelSize c).toNat := by
    intro l
    rw [moved, Nat.mod_add_mod, Nat.add_assoc]
  unfold CellsFit
  simp only [shift]
  constructor
  · intro fits
    exact ⟨fun l less => fits l (by omega), fun l less => fits (j + l) (by omega)⟩
  · rintro ⟨front, back⟩ l less
    by_cases before : l < j
    · exact front l before
    · have place : j + (l - j) = l := by omega
      have cell := back (l - j) (by omega)
      rwa [place] at cell

theorem unreadCells_fit_iff : (∀ k ∈ unreadCells m c, k.toNat < totalBufferSize) ↔
    CellsFit m c (m.head c) (m.indexData c).toNat := by
  simp [unreadCells, CellsFit]

theorem cellsFit_of_ring (pos : 0 < (m.channelSize c).toNat)
    (ring : (m.bufferStart c).toNat + (m.channelSize c).toNat ≤ totalBufferSize)
    (place : UInt32) (k : Nat) : CellsFit m c place k := by
  intro j _
  have less := Nat.mod_lt (place.toNat + j) pos
  have small := toNat_ofNat_mod (n := m.channelSize c) (place.toNat + j) pos
  rw [UInt32.toNat_add, small]
  simp only [totalBufferSize] at *
  omega

end cells

section calls
variable {m : Ram} {c : Channel}

theorem driverWrite_inBounds_iff (tail : m.tail c < m.channelSize c) (b : UInt8) :
    Driver.InBounds (Driver.writeBuffer c b) m ↔ CellsFit m c (m.tail c) 1 := by
  rw [Driver.write_inBounds_iff, cellsFit_one tail]

theorem driverRead_inBounds_iff (head : m.head c < m.channelSize c) :
    Driver.InBounds (Driver.readBuffer c) m ↔
      (m.indexData c ≠ 0 → CellsFit m c (m.head c) 1) := by
  rw [Driver.read_inBounds_iff, cellsFit_one head]

theorem writeLoop_inBounds_iff (tail : m.tail c < m.channelSize c) (i : Nat) :
    Driver.InBounds (Firmware.writeLoop c i) m ↔ CellsFit m c (m.tail c) i := by
  induction i generalizing m with
  | zero => exact iff_of_true (fun _ mem => by cases mem) (cellsFit_zero _)
  | succ i ih =>
    have nonzero := ne_zero_of_lt tail
    have round : Driver.InBounds (Firmware.writeLoop c (i + 1)) m ↔
        (m.bufferStart c + m.tail c).toNat < totalBufferSize ∧
          Driver.InBounds (Firmware.writeLoop c i) (pushed m c (m.pruData (i + 1))) := by
      simp [Driver.InBounds, writeLoop_trace nonzero, dataCell, List.filterMap_cons]
    have later : (pushed m c (m.pruData (i + 1))).tail c <
        (pushed m c (m.pruData (i + 1))).channelSize c := by
      rw [pushed_tail]
      exact next_lt tail
    rw [round, ih later, pushed_tail, cellsFit_succ tail]
    rfl

theorem countUp_inBounds (length : Int32) : Driver.InBounds (Firmware.countUp c length) m := by
  by_cases room : m.indexData c + length.toUInt32 < m.channelSize c
  · simp [Driver.InBounds, Firmware.countUp, room, dataCell, List.filterMap_cons]
  · simp [Driver.InBounds, Firmware.countUp, room, dataCell, List.filterMap_cons]

theorem firmwareWrite_inBounds_iff (tail : m.tail c < m.channelSize c) (length : Int32) :
    Driver.InBounds (Firmware.writeBuffer c length) m ↔
      CellsFit m c (m.tail c) length.toNatClampNeg := by
  have ends : ∀ m', Driver.InBounds
      (Firmware.countUp c length >>= fun _ => (pure 0 : Code Int32)) m' := by
    intro m'
    rw [Driver.inBounds_bind]
    exact ⟨countUp_inBounds length, fun _ _ _ _ mem => by cases mem⟩
  rw [Firmware.writeBuffer, Driver.inBounds_bind, writeLoop_inBounds_iff tail]
  exact and_iff_left fun _ m' _ => ends m'

theorem readLoop_inBounds_iff (head : m.head c < m.channelSize c) (left i : Nat) :
    Driver.InBounds (Firmware.readLoop c left i) m ↔ CellsFit m c (m.head c) left := by
  induction left generalizing m i with
  | zero => exact iff_of_true (fun _ mem => by cases mem) (cellsFit_zero _)
  | succ left ih =>
    have nonzero := ne_zero_of_lt head
    have round : Driver.InBounds (Firmware.readLoop c (left + 1) i) m ↔
        (m.bufferStart c + m.head c).toNat < totalBufferSize ∧
          Driver.InBounds (Firmware.readLoop c left (i + 1)) (copied m c i) := by
      simp [Driver.InBounds, Firmware.readLoop, headCell, advanceHead, umod_pos _ nonzero, copied,
        sought, dataCell, List.filterMap_cons]
    have moved : (copied m c i).head c = (m.head c + 1) % m.channelSize c := sought_head
    have later : (copied m c i).head c < (copied m c i).channelSize c := by
      rw [moved]
      exact next_lt head
    rw [round, ih later, moved, cellsFit_succ head]
    rfl

theorem firmwareRead_inBounds_iff (head : m.head c < m.channelSize c) (length : Int32) :
    Driver.InBounds (Firmware.readBuffer c length) m ↔
      ((m.indexData c).toInt32 - length ≥ 0 →
        CellsFit m c (m.head c) length.toNatClampNeg) := by
  by_cases guard : (m.indexData c).toInt32 - length ≥ 0
  · have loop := readLoop_inBounds_iff head length.toNatClampNeg 0
    have run := readLoop_run head length.toNatClampNeg 0
    have accesses : Driver.InBounds (Firmware.readBuffer c length) m ↔
        Driver.InBounds (Firmware.readLoop c length.toNatClampNeg 0) m := by
      simp [Driver.InBounds, Firmware.readBuffer, guard, Prog.trace_bind_ok run, dataCell,
        List.filterMap_cons]
    rw [accesses, loop]
    exact ⟨fun fits _ => fits, fun fits => fits guard⟩
  · refine iff_of_true ?_ fun passed => absurd passed guard
    simp [Driver.InBounds, Firmware.readBuffer, guard, dataCell, List.filterMap_cons]

theorem driverRead_op_inBounds_iff (head : m.head c < m.channelSize c) :
    Driver.InBounds (Op.driverRead c).body ((Op.driverRead c).prepare m) ↔
      (m.indexData c ≠ 0 → CellsFit m c (m.head c) 1) :=
  (Driver.inBounds_map _ _ _).trans (driverRead_inBounds_iff head)

theorem firmwareWrite_op_inBounds_iff (tail : m.tail c < m.channelSize c) (pruData : Nat → UInt8)
    (length : Int32) :
    Driver.InBounds (Op.firmwareWrite c pruData length).body
      ((Op.firmwareWrite c pruData length).prepare m) ↔
        CellsFit m c (m.tail c) length.toNatClampNeg := by
  let prepared : Ram := { m with pruData := pruData }
  have inside : Driver.InBounds (Firmware.writeBuffer c length) prepared ↔
      CellsFit m c (m.tail c) length.toNatClampNeg :=
    @firmwareWrite_inBounds_iff prepared c tail length
  exact (Driver.inBounds_map _ _ _).trans inside

end calls

section placed
variable {m m' : Ram} {c d : Channel} {op : Op} {out : Outcome}

theorem AfterInit.placed (init : AfterInit m) (pos : 0 < (m.channelSize c).toNat) :
    Placed m c := by
  obtain ⟨-, head, tail⟩ := init.empty c
  constructor
  · rw [head]
    exact UInt32.lt_iff_toNat_lt.mpr pos
  · rw [tail]
    exact UInt32.lt_iff_toNat_lt.mpr pos

theorem Placed.driverWrite (placed : Placed m c) (b : UInt8) : Placed (Driver.written m c b) c := by
  refine ⟨placed.head, ?_⟩
  change (Driver.written m c b).tail c < m.channelSize c
  rw [Driver.written_tail]
  exact next_lt placed.tail

theorem Placed.driverRead (placed : Placed m c) : Placed (Driver.consumed m c) c := by
  refine ⟨?_, placed.tail⟩
  change (Driver.consumed m c).head c < m.channelSize c
  rw [Driver.consumed_head]
  exact next_lt placed.head

theorem Placed.firmwareWrite (placed : Placed m c) {pruData : Nat → UInt8} {length ret : Int32}
    (run : (Firmware.writeBuffer c length).run { m with pruData := pruData } = .ok (ret, m')) :
    Placed m' c := by
  have nonzero := ne_zero_of_lt placed.head
  let prepared : Ram := { m with pruData := pruData }
  let bytes := storedBytes pruData length.toNatClampNeg
  have ran := @firmwareWrite_run prepared c length (Or.inl nonzero)
  obtain ⟨data, pushes⟩ := @pushedAll_eq prepared c placed.tail bytes
  rw [pushes] at ran
  rw [ran] at run
  cases run
  refine ⟨placed.head, ?_⟩
  have pos : 0 < (m.channelSize c).toNat := toNat_pos nonzero
  change Function.update m.tail c _ c < m.channelSize c
  rw [Function.update_self, UInt32.lt_iff_toNat_lt, toNat_ofNat_mod _ pos]
  exact Nat.mod_lt _ pos

theorem Placed.firmwareRead (placed : Placed m c) {length ret : Int32}
    (run : (Firmware.readBuffer c length).run m = .ok (ret, m')) : Placed m' c := by
  by_cases guard : (m.indexData c).toInt32 - length ≥ 0
  · rw [firmwareRead_guarded guard (readLoop_run placed.head length.toNatClampNeg 0)] at run
    cases run
    exact ⟨soughtBy_lt (toNat_pos_of_lt placed.head) length.toNatClampNeg, placed.tail⟩
  · rw [(firmwareRead_stopped guard).2] at run
    cases run
    exact placed

theorem Placed.own (placed : Placed m op.channel) (run : op.exec m = .ok (out, m')) :
    Placed m' op.channel := by
  have nonzero := ne_zero_of_lt placed.head
  obtain ⟨ret, body⟩ := run_of_exec run
  cases op with
  | driverWrite c b =>
    obtain ⟨done, wrote, -⟩ := Prog.exists_of_run_map body
    replace wrote : (Driver.writeBuffer c b).run m = .ok (done, m') := wrote
    rw [Driver.writeBuffer_run m c b nonzero] at wrote
    cases wrote
    exact placed.driverWrite b
  | driverRead c =>
    obtain ⟨value, read, -⟩ := Prog.exists_of_run_map body
    replace read : (Driver.readBuffer c).run m = .ok (value, m') := read
    by_cases none : m.indexData c = 0
    · rw [Driver.readBuffer_run_empty m c none] at read
      cases read
      exact placed
    · rw [Driver.readBuffer_run m c nonzero none] at read
      cases read
      exact placed.driverRead
  | firmwareWrite c pruData length =>
    obtain ⟨ret', wrote, -⟩ := Prog.exists_of_run_map body
    exact placed.firmwareWrite wrote
  | firmwareRead c length =>
    obtain ⟨ret', read, -⟩ := Prog.exists_of_run_map body
    exact placed.firmwareRead read

theorem Placed.exec (placed : Placed m d) (run : op.exec m = .ok (out, m')) : Placed m' d := by
  by_cases same : d = op.channel
  · subst same
    exact placed.own run
  · have kept := exec_untouched run
    constructor
    · rw [kept.head d same, kept.channelSize]
      exact placed.head
    · rw [kept.tail d same, kept.channelSize]
      exact placed.tail

theorem Placed.inBounds (placed : Placed m op.channel)
    (fits : ∀ place k, CellsFit m op.channel place k) :
    Driver.InBounds op.body (op.prepare m) := by
  cases op with
  | driverWrite c b =>
    exact (Driver.inBounds_map _ _ _).mpr ((driverWrite_inBounds_iff placed.tail b).mpr (fits _ _))
  | driverRead c => exact (driverRead_op_inBounds_iff placed.head).mpr fun _ => fits _ _
  | firmwareWrite c pruData length =>
    exact (firmwareWrite_op_inBounds_iff placed.tail pruData length).mpr (fits _ _)
  | firmwareRead c length =>
    exact (Driver.inBounds_map _ _ _).mpr
      ((firmwareRead_inBounds_iff placed.head length).mpr fun _ => fits _ _)

end placed

def Lodged (m : Ram) : Prop :=
  ∀ c, m.channelSize c ≠ 0 → Placed m c ∧
    (m.bufferStart c).toNat + (m.channelSize c).toNat ≤ totalBufferSize

section lodged
variable {m m' : Ram} {op : Op} {out : Outcome}

theorem Lodged.exec (lodged : Lodged m) (run : op.exec m = .ok (out, m')) : Lodged m' := by
  have kept := exec_untouched run
  intro c sized
  rw [kept.channelSize] at sized
  obtain ⟨placed, ring⟩ := lodged c sized
  rw [kept.bufferStart, kept.channelSize]
  exact ⟨placed.exec run, ring⟩

theorem Lodged.cells {c : Channel} (lodged : Lodged m) (sized : m.channelSize c ≠ 0)
    (place : UInt32) (k : Nat) : CellsFit m c place k :=
  cellsFit_of_ring (toNat_pos sized) (lodged c sized).2 place k

theorem Lodged.inBounds (lodged : Lodged m) (sized : m.channelSize op.channel ≠ 0) :
    Driver.InBounds op.body (op.prepare m) :=
  (lodged op.channel sized).1.inBounds (lodged.cells sized)

theorem laidOut_lodged {size : Channel → UInt32} (fits : ∀ c, size c ≠ 0 →
    Driver.start32 size c + (size c).toNat ≤ totalBufferSize) (m : Ram) :
    Lodged (Driver.laidOut m size) := by
  intro c sized
  have pos : 0 < (Driver.laidOut m size).channelSize c :=
    UInt32.lt_iff_toNat_lt.mpr (toNat_pos sized)
  exact ⟨⟨pos, pos⟩, fits c sized⟩

end lodged

/-- A call whose accesses to ring bytes are all in `ring->data`. -/
def Op.execInside (op : Op) (m : Ram) : Option (Outcome × Ram) :=
  if Driver.InBounds op.body (op.prepare m) then (op.exec m).toOption else none

def runInside : List Op → Ram → Option (List Outcome × Ram)
  | [], m => some ([], m)
  | op :: rest, m => do
    let (out, m') ← op.execInside m
    let (outs, m'') ← runInside rest m'
    pure (out :: outs, m'')

section inside
variable {m m' : Ram} {op : Op} {out : Outcome} {ops rest : List Op} {outs : List Outcome}

theorem execInside_iff : op.execInside m = some (out, m') ↔
    Driver.InBounds op.body (op.prepare m) ∧ op.exec m = .ok (out, m') := by
  unfold Op.execInside
  by_cases inside : Driver.InBounds op.body (op.prepare m)
  · rw [if_pos inside, and_iff_right inside]
    cases op.exec m with
    | error e => exact iff_of_false nofun nofun
    | ok result =>
      constructor
      · intro same
        rw [Option.some.inj same]
      · intro same
        rw [Except.ok.inj same]
        rfl
  · rw [if_neg inside]
    exact iff_of_false nofun fun both => inside both.1

theorem runInside_cons_iff : runInside (op :: rest) m = some (outs, m') ↔
    ∃ out m₁ later, op.execInside m = some (out, m₁) ∧ runInside rest m₁ = some (later, m') ∧
      outs = out :: later := by
  simp only [runInside, Option.bind_eq_bind, Option.bind_eq_some_iff, Option.pure_def,
    Option.some.injEq, Prod.mk.injEq, Prod.exists]
  constructor
  · rintro ⟨out, m₁, first, later, m₂, run, rfl, rfl⟩
    exact ⟨out, m₁, later, first, run, rfl⟩
  · rintro ⟨out, m₁, later, first, run, rfl⟩
    exact ⟨out, m₁, first, later, m', run, rfl, rfl⟩

theorem runOps_of_inside (run : runInside ops m = some (outs, m')) :
    runOps ops m = .ok (outs, m') := by
  induction ops generalizing m outs with
  | nil =>
    cases run
    rfl
  | cons op rest ih =>
    obtain ⟨out, m₁, later, first, others, rfl⟩ := runInside_cons_iff.mp run
    have call := (execInside_iff.mp first).2
    rw [runOps, call]
    simp only [ih others]

end inside

end PruBridge
