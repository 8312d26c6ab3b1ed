import PruBridge.RingBounds
import PruBridge.RunHistory
import PruBridge.StreamRounds
import PruBridge.ZeroDivision

/-!
The programs on the PRU side (`firmware/Examples`) beside any use of the driver's files. Both
programs wait for `init_check` and then for a flag byte on channel 2, before they enter their
loop. Here the calls of the driver and the rounds of the program follow each other whole.
-/
namespace PruBridge.Program
open AtomicProgram CircularBuffer Driver

/-- Where `main` is: in one of its two waiting loops, or in the last one with the locals `σ`. -/
inductive Point (σ : Type) where
  | waitInit
  | waitFlag
  | loop (locals : σ)
  deriving DecidableEq

structure Main (σ : Type) where
  first : σ
  /-- One round of the endless loop. -/
  round : σ → Ram → Except Fault (σ × Ram)

/-- `while(check_init() != 1);` and `while(check_flag == 0) read_buffer(1,&check_flag,1);`, one
    round of either. A refused read leaves `check_flag` zero. -/
def Main.turn {σ : Type} (M : Main σ) : Point σ → Ram → Except Fault (Point σ × Ram)
  | .waitInit, m => match Firmware.checkInit.run m with
    | .error e => .error e
    | .ok (flag, m') => .ok (if flag ≠ 1 then .waitInit else .waitFlag, m')
  | .waitFlag, m => match (Op.firmwareRead 1 1).exec m with
    | .error e => .error e
    | .ok (out, m') => .ok (if out.bytes.headD 0 = 0 then .waitFlag else .loop M.first, m')
  | .loop s, m => match M.round s m with
    | .error e => .error e
    | .ok (s', m') => .ok (.loop s', m')

def localByte (i : UInt8) (behind : Nat → UInt8) (j : Nat) : UInt8 := if j = 0 then i else behind j

/-- `btye_stream_write.c`: the local is `i`. -/
def byteStreamWrite (behind : Nat → UInt8) : Main UInt8 where
  first := 0
  round i m := match (Firmware.streamRound 0).run { m with pruData := localByte i behind } with
    | .error e => .error e
    | .ok (wrote, m') => .ok (if wrote then i + 1 else i, m')

inductive Turn where
  | arm (call : Call)
  | pru

def Main.step {σ : Type} (M : Main σ) :
    Turn → Point σ × Ram → Except (Side × Fault) (Option Reply × (Point σ × Ram))
  | .arm call, (p, m) => match call.body.run m with
    | .error e => .error (.arm, e)
    | .ok (reply, m') => .ok (some reply, (p, m'))
  | .pru, (p, m) => match M.turn p m with
    | .error e => .error (.pru, e)
    | .ok (p', m') => .ok (none, (p', m'))

/-- After each init of the ARM, every ring that has a size lies in `ring->data`. -/
def RingsFit : List Call → (size : Channel → UInt32) → Prop
  | [], _ => True
  | .init buf :: rest, size =>
    (∀ c, sizesAfter buf size c ≠ 0 →
      start32 (sizesAfter buf size) c + (sizesAfter buf size c).toNat ≤ totalBufferSize) ∧
        RingsFit rest (sizesAfter buf size)
  | .channel _ :: rest, size => RingsFit rest size

def Stays (behind : Nat → UInt8) : Turn → Point UInt8 × Ram → Prop
  | .arm call, (_, m) => InBounds call.body m
  | .pru, (.waitInit, m) => InBounds Firmware.checkInit m
  | .pru, (.waitFlag, m) => InBounds (Op.firmwareRead 1 1).body m
  | .pru, (.loop i, m) =>
    InBounds (Firmware.streamRound 0) { m with pruData := localByte i behind }

/-- Every turn of the run that does not fault stays inside. -/
def KeepsInside (behind : Nat → UInt8) (turns : List Turn) (s₀ : Point UInt8 × Ram) : Prop :=
  ∀ before turn after replies s, turns = before ++ turn :: after →
    Simulation.run (byteStreamWrite behind).step before s₀ = .ok (replies, s) →
      (∃ r, (byteStreamWrite behind).step turn s = .ok r) → Stays behind turn s

section runs
variable {m : Ram} {op : Op}

theorem exec_total (sized : m.channelSize op.channel ≠ 0) :
    ∃ out m', op.exec m = .ok (out, m') := by
  cases op with
  | driverWrite c b => exact ⟨_, _, exec_of_run _ (Prog.run_map_ok (writeBuffer_run m c b sized))⟩
  | driverRead c =>
    by_cases none : m.indexData c = 0
    · exact ⟨_, _, exec_of_run _ (Prog.run_map_ok (readBuffer_run_empty m c none))⟩
    · exact ⟨_, _, exec_of_run _ (Prog.run_map_ok (readBuffer_run m c sized none))⟩
  | firmwareWrite c pruData length =>
    have written : ∃ m', (Firmware.writeBuffer c length).run { m with pruData := pruData } =
        .ok (0, m') := ⟨_, firmwareWrite_run (Or.inl sized)⟩
    obtain ⟨m', run⟩ := written
    exact ⟨_, _, exec_of_run (.firmwareWrite c pruData length) (Prog.run_map_ok run)⟩
  | firmwareRead c length =>
    by_cases guard : (m.indexData c).toInt32 - length ≥ 0
    · obtain ⟨-, m', run, -, -⟩ := firmwareRead_passed (m := m) (c := c) sized guard
      exact ⟨_, _, exec_of_run _ (Prog.run_map_ok run)⟩
    · have run : (Firmware.readBuffer c length).run m = .ok (-1, m) := by
        simp [Firmware.readBuffer, guard]
      exact ⟨_, _, exec_of_run _ (Prog.run_map_ok run)⟩

theorem sized_exec (op : Op) (sized : Sized m) (pos : m.channelSize op.channel ≠ 0)
    {out : Outcome} {m' : Ram} (run : op.exec m = .ok (out, m')) : Sized m' := by
  have same := exec_untouched run
  intro d zero
  rw [same.channelSize] at zero
  have other : d ≠ op.channel := by
    rintro rfl
    exact pos zero
  rw [same.indexData d other]
  exact sized d zero

theorem streamRound_run (c : Channel) (m : Ram) : (Firmware.streamRound c).run m =
    if Firmware.free m c ≠ 0 then match (Firmware.writeBuffer c 1).run m with
      | .ok (_, m') => .ok (true, m')
      | .error e => .error e
    else .ok (false, m) := by
  rw [Firmware.streamRound, Prog.run_bind_ok (Firmware.checkIndex_run m c)]
  split
  · rw [Prog.run_bind]
    cases (Firmware.writeBuffer c 1).run m <;> rfl
  · rfl

/-- A round of the loop is the guarded call, with the memory of `i` as its array. -/
theorem round_eq (behind : Nat → UInt8) (i : UInt8) (m : Ram) :
    (byteStreamWrite behind).round i m =
      if Firmware.free m 0 ≠ 0 then
        match (Op.firmwareWrite 0 (localByte i behind) 1).exec m with
        | .ok (_, m') => .ok (i + 1, m')
        | .error e => .error e
      else .ok (i, { m with pruData := localByte i behind }) := by
  have free : Firmware.free { m with pruData := localByte i behind } 0 = Firmware.free m 0 := rfl
  simp only [byteStreamWrite, streamRound_run, free, Op.exec, Op.body, Op.prepare]
  by_cases room : Firmware.free m 0 ≠ 0
  · rw [if_pos room, if_pos room, map_eq_pure_bind, Prog.run_bind]
    cases (Firmware.writeBuffer 0 1).run { m with pruData := localByte i behind } <;> rfl
  · rw [if_neg room, if_neg room]
    rfl

structure Settled (m : Ram) : Prop where
  sized : Sized m
  lodged : Lodged m

theorem Settled.exec (settled : Settled m) (op : Op) (pos : m.channelSize op.channel ≠ 0)
    {out : Outcome} {m' : Ram} (run : op.exec m = .ok (out, m')) : Settled m' :=
  ⟨sized_exec op settled.sized pos run, settled.lodged.exec run⟩

theorem Settled.of_local (settled : Settled m) (pruData : Nat → UInt8) :
    Settled { m with pruData := pruData } := by
  refine ⟨settled.sized, ?_⟩
  intro c sized
  obtain ⟨placed, ring⟩ := settled.lodged c sized
  exact ⟨⟨placed.head, placed.tail⟩, ring⟩

theorem flag_total (settled : Settled m) : ∃ out m', (Op.firmwareRead 1 1).exec m = .ok (out, m') ∧
    Settled m' ∧ m'.channelSize = m.channelSize ∧ InBounds (Op.firmwareRead 1 1).body m := by
  by_cases zero : m.channelSize 1 = 0
  · have none := settled.sized 1 zero
    have run : (Firmware.readBuffer 1 1).run m = .ok (-1, m) := by
      simp [Firmware.readBuffer, none]
    have inside : InBounds (Firmware.readBuffer 1 1) m := by
      simp [InBounds, Firmware.readBuffer, none, dataCell, List.filterMap_cons]
    exact ⟨_, m, exec_of_run (.firmwareRead 1 1) (Prog.run_map_ok run), settled, rfl,
      (inBounds_map _ _ _).mpr inside⟩
  · obtain ⟨out, m', run⟩ : ∃ out m', (Op.firmwareRead 1 1).exec m = .ok (out, m') :=
      exec_total zero
    have inside : InBounds (Op.firmwareRead 1 1).body ((Op.firmwareRead 1 1).prepare m) :=
      settled.lodged.inBounds zero
    exact ⟨out, m', run, settled.exec (.firmwareRead 1 1) zero run,
      (exec_untouched run).channelSize, inside⟩

theorem size_of_free (settled : Settled m) (room : Firmware.free m 0 ≠ 0) :
    m.channelSize 0 ≠ 0 := by
  intro zero
  apply room
  rw [Firmware.free, zero, settled.sized 0 zero]
  rfl

theorem streamRound_inBounds (settled : Settled m) (pruData : Nat → UInt8) :
    InBounds (Firmware.streamRound 0) { m with pruData := pruData } := by
  have free : Firmware.free { m with pruData := pruData } 0 = Firmware.free m 0 := rfl
  rw [Firmware.streamRound, inBounds_bind]
  constructor
  · simp [InBounds, Firmware.checkIndex, dataCell, List.filterMap_cons]
  · intro empty m' run
    rw [Firmware.checkIndex_run, free] at run
    cases run
    split
    · rename_i room
      have inside : InBounds (Op.firmwareWrite 0 pruData 1).body
          ((Op.firmwareWrite 0 pruData 1).prepare m) :=
        settled.lodged.inBounds (size_of_free settled room)
      rw [inBounds_bind]
      exact ⟨(inBounds_map _ _ _).mp inside, fun _ _ _ _ mem => by cases mem⟩
    · exact fun _ mem => by cases mem

/-- The program never divides by zero: where `check_index` is not zero, the size is not. -/
theorem turn_total (settled : Settled m) (behind : Nat → UInt8) (p : Point UInt8) :
    (∃ p' m', (byteStreamWrite behind).turn p m = .ok (p', m') ∧ Settled m' ∧
      m'.channelSize = m.channelSize) ∧ Stays behind .pru (p, m) := by
  cases p with
  | waitInit => exact ⟨⟨_, m, rfl, settled, rfl⟩, fun _ mem => by cases mem⟩
  | waitFlag =>
    obtain ⟨out, m', run, settled', same, inside⟩ := flag_total settled
    exact ⟨⟨_, m', by rw [Main.turn, run], settled', same⟩, inside⟩
  | loop i =>
    refine ⟨?_, streamRound_inBounds settled (localByte i behind)⟩
    by_cases room : Firmware.free m 0 ≠ 0
    · have pos : m.channelSize 0 ≠ 0 := size_of_free settled room
      let op := Op.firmwareWrite 0 (localByte i behind) 1
      obtain ⟨out, m', run⟩ : ∃ out m', op.exec m = .ok (out, m') := exec_total pos
      refine ⟨.loop (i + 1), m', ?_, settled.exec op pos run, (exec_untouched run).channelSize⟩
      rw [Main.turn, round_eq, if_pos room, run]
    · have settled' : Settled { m with pruData := localByte i behind } :=
        settled.of_local (localByte i behind)
      refine ⟨.loop i, { m with pruData := localByte i behind }, ?_, settled', rfl⟩
      rw [Main.turn, round_eq, if_neg room]

def armCalls : List Turn → List Call
  | [] => []
  | .arm call :: rest => call :: armCalls rest
  | .pru :: rest => armCalls rest

theorem mem_armCalls {turns : List Turn} {call : Call} :
    call ∈ armCalls turns ↔ .arm call ∈ turns := by
  induction turns with
  | nil => simp [armCalls]
  | cons turn rest ih => cases turn <;> simp [armCalls, ih]

theorem call_settled (settled : Settled m) {call : Call} (short : call.Short) {rest : List Call}
    (fit : RingsFit (call :: rest) m.channelSize) :
    (∃ reply m', call.body.run m = .ok (reply, m') ∧ Settled m' ∧
      (WritesSized (call :: rest) m.channelSize ↔ WritesSized rest m'.channelSize) ∧
      RingsFit rest m'.channelSize ∧ InBounds call.body m) ∨
    (call.body.run m = .error .moduloByZero ∧ ¬ WritesSized (call :: rest) m.channelSize) := by
  cases call with
  | init buf =>
    have lodged := laidOut_lodged fit.1 m
    have inside := (inBounds_map _ Reply.count m).mpr (init_inBounds buf m)
    exact Or.inl ⟨_, _, init_run m buf short, ⟨fun _ _ => rfl, lodged⟩, Iff.rfl, fit.2, inside⟩
  | channel call =>
    cases call with
    | write n buf =>
      by_cases zero : m.channelSize n = 0
      · exact Or.inr ⟨write_run_zero m n buf zero, fun condition => condition.1 zero⟩
      · have run := exec_of_run (.driverWrite n (buf.headD 0))
          (Prog.run_map_ok (writeBuffer_run m n (buf.headD 0) zero))
        have settled' := settled.exec (.driverWrite n (buf.headD 0)) zero run
        have tail := (settled.lodged n zero).1.tail
        have cell := (cellsFit_one tail).mp (settled.lodged.cells zero _ 1)
        exact Or.inl ⟨_, _, write_run m n buf zero, settled', and_iff_right zero, fit,
          (write_call_inBounds_iff m n buf).mpr cell⟩
    | read n =>
      by_cases none : m.indexData (served n) = 0
      · have inside : InBounds (Call.channel (.read n)).body m :=
          (read_call_inBounds_iff m n).mpr fun some => absurd none some
        exact Or.inl ⟨_, m, read_run_empty m n none, settled, Iff.rfl, fit, inside⟩
      · have pos : m.channelSize (served n) ≠ 0 := fun zero => none (settled.sized _ zero)
        have run := exec_of_run (.driverRead (served n))
          (Prog.run_map_ok (readBuffer_run m (served n) pos none))
        have settled' := settled.exec (.driverRead (served n)) pos run
        have head := (settled.lodged (served n) pos).1.head
        have cell := (cellsFit_one head).mp (settled.lodged.cells pos _ 1)
        exact Or.inl ⟨_, _, read_run m n pos none, settled', Iff.rfl, fit,
          (read_call_inBounds_iff m n).mpr fun _ => cell⟩

theorem turn_steps (settled : Settled m) (behind : Nat → UInt8) (p : Point UInt8) {turn : Turn}
    {rest : List Turn} (short : ∀ call, .arm call ∈ turn :: rest → call.Short)
    (fit : RingsFit (armCalls (turn :: rest)) m.channelSize) :
    (∃ reply p' m', (byteStreamWrite behind).step turn (p, m) = .ok (reply, (p', m')) ∧ Settled m' ∧
      (WritesSized (armCalls (turn :: rest)) m.channelSize ↔
        WritesSized (armCalls rest) m'.channelSize) ∧
      RingsFit (armCalls rest) m'.channelSize ∧ Stays behind turn (p, m)) ∨
    ((byteStreamWrite behind).step turn (p, m) = .error (.arm, .moduloByZero) ∧
      ¬ WritesSized (armCalls (turn :: rest)) m.channelSize) := by
  cases turn with
  | pru =>
    obtain ⟨⟨p', m', run, settled', same⟩, inside⟩ := turn_total settled behind p
    refine Or.inl ⟨none, p', m', ?_, settled', ?_, ?_, inside⟩
    · rw [Main.step, run]
    · rw [same]
      exact Iff.rfl
    · rw [same]
      exact fit
  | arm call =>
    rcases call_settled settled (short call List.mem_cons_self) fit with
      ⟨reply, m', run, settled', condition, fit', inside⟩ | ⟨fault, bad⟩
    · refine Or.inl ⟨some reply, p, m', ?_, settled', condition, fit', inside⟩
      rw [Main.step, run]
    · refine Or.inr ⟨?_, bad⟩
      rw [Main.step, fault]

theorem program_stops_iff (settled : Settled m) (behind : Nat → UInt8) (p : Point UInt8)
    {turns : List Turn} (short : ∀ call, .arm call ∈ turns → call.Short)
    (fit : RingsFit (armCalls turns) m.channelSize) :
    (WritesSized (armCalls turns) m.channelSize →
      ∃ r, Simulation.run (byteStreamWrite behind).step turns (p, m) = .ok r) ∧
    (¬ WritesSized (armCalls turns) m.channelSize →
      Simulation.run (byteStreamWrite behind).step turns (p, m) =
        .error (.arm, .moduloByZero)) := by
  induction turns generalizing p m with
  | nil => exact ⟨fun _ => ⟨_, rfl⟩, fun faults => absurd trivial faults⟩
  | cons turn rest ih =>
    have later : ∀ call, .arm call ∈ rest → call.Short :=
      fun call mem => short call (List.mem_cons_of_mem _ mem)
    rcases turn_steps settled behind p short fit with
      ⟨reply, p', m', run, settled', condition, fit', -⟩ | ⟨fault, bad⟩
    · obtain ⟨runs, faults⟩ := ih settled' p' later fit'
      simp only [Simulation.run, run, condition]
      constructor
      · intro fine
        obtain ⟨r, done⟩ := runs fine
        exact ⟨_, by rw [done]⟩
      · intro bad
        rw [faults bad]
    · refine ⟨fun fine => absurd fine bad, fun _ => ?_⟩
      simp only [Simulation.run, fault]

theorem program_stays (settled : Settled m) (behind : Nat → UInt8) (p : Point UInt8)
    {turns : List Turn} (short : ∀ call, .arm call ∈ turns → call.Short)
    (fit : RingsFit (armCalls turns) m.channelSize) : KeepsInside behind turns (p, m) := by
  rintro before turn after replies s rfl run ⟨r, done⟩
  induction before generalizing p m replies with
  | nil =>
    cases run
    rcases turn_steps settled behind p short fit with ⟨-, -, -, -, -, -, -, inside⟩ | ⟨fault, -⟩
    · exact inside
    · rw [fault] at done
      cases done
  | cons first rest ih =>
    have later : ∀ call, .arm call ∈ rest ++ turn :: after → call.Short :=
      fun call mem => short call (List.mem_cons_of_mem _ mem)
    rcases turn_steps settled behind p short fit with
      ⟨reply, p', m', step, settled', -, fit', -⟩ | ⟨fault, -⟩
    · obtain ⟨replies', others⟩ := Simulation.run_rest step run
      exact ih settled' p' replies' later fit' others
    · simp only [Simulation.run, fault] at run
      cases run

theorem settled_of_probe (probed : AfterProbe m) : Settled m := by
  have cleared := probed.cleared
  constructor
  · intro c _
    rw [cleared.indexData]
  · intro c sized
    rw [cleared.channelSize] at sized
    exact absurd rfl sized

end runs

/-- The streaming program never divides by zero, from `probe` on and whatever the ARM does with
    texts whose rings lie in `ring->data` and any accesses to the channel files: a run faults
    exactly when the ARM itself writes to a channel that has no size, and all turns that do not
    fault stay in `ring->data`. -/
theorem stream_program_faults_iff (m : Ram) (probed : AfterProbe m) (behind : Nat → UInt8)
    (turns : List Turn) (short : ∀ call, .arm call ∈ turns → call.Short)
    (fit : RingsFit (armCalls turns) fun _ => 0) :
    ((∃ r, Simulation.run (byteStreamWrite behind).step turns (.waitInit, m) = .ok r) ↔
      WritesSized (armCalls turns) (fun _ => 0)) ∧
    (∀ e, Simulation.run (byteStreamWrite behind).step turns (.waitInit, m) ≠
      .error (.pru, e)) ∧ KeepsInside behind turns (.waitInit, m) := by
  have settled := settled_of_probe probed
  rw [← probed.cleared.channelSize] at fit ⊢
  obtain ⟨runs, faults⟩ := program_stops_iff settled behind .waitInit short fit
  refine ⟨?_, ?_, program_stays settled behind .waitInit short fit⟩
  · constructor
    · rintro ⟨r, done⟩
      by_contra bad
      rw [faults bad] at done
      cases done
    · exact runs
  · intro e stopped
    by_cases condition : WritesSized (armCalls turns) m.channelSize
    · obtain ⟨r, done⟩ := runs condition
      rw [done] at stopped
      cases stopped
    · rw [faults condition] at stopped
      cases stopped

/-- Polling before and after the init, a flag, two bytes streamed and one of them read. -/
theorem stream_program_faults_iff_flag : ∃ m, AfterProbe m ∧ ∃ r,
    Simulation.run (byteStreamWrite fun _ => 7).step [.pru, .arm (.init pairsText), .pru, .pru,
      .arm (.channel (.write 1 [1])), .pru, .pru, .pru, .arm (.channel (.read 0))]
      (.waitInit, m) = .ok r := by
  obtain ⟨m, probed⟩ := exists_afterProbe
  have sizes : sizesAfter pairsText (fun _ => 0) = fun _ => 2 := pairs_sizes
  refine ⟨m, probed, (stream_program_faults_iff m probed (fun _ => 7) _ ?_ ?_).1.mpr ?_⟩
  · intro call mem
    simp only [List.mem_cons, Turn.arm.injEq, reduceCtorEq, List.not_mem_nil, false_or,
      or_false] at mem
    rcases mem with rfl | rfl | rfl
    · decide
    · trivial
    · trivial
  · simp only [armCalls, RingsFit, sizes]
    decide
  · change sizesAfter pairsText (fun _ => 0) 1 ≠ 0 ∧ True
    rw [sizes]
    decide

end PruBridge.Program
