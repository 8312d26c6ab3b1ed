import PruBridge.Fairness
import PruBridge.StreamDelivery

/-!
The streaming program in runs without end: if the ARM writes a flag, and the program gets its
turns and the ARM keeps reading, the stream does not come to rest.
-/
namespace PruBridge.Program
open AtomicProgram CircularBuffer Driver Fairness

def upTo (sched : Nat → Turn) (t : Nat) : List Turn := (List.range t).map sched

/-- The ARM leaves its channels to the firmware, its flags are not zero and there is one; the
    program and the reads of channel 1 have their turn again and again. -/
structure Fair (sched : Nat → Turn) : Prop where
  plain : ∀ t call, sched t = .arm call → Plain call
  flag : ∃ t buf, sched t = .arm (.channel (.write 1 buf))
  nonzero : ∀ t buf, sched t = .arm (.channel (.write 1 buf)) → buf.headD 0 ≠ 0
  rounds : Recurrent fun t => sched t = .pru
  reads : Recurrent fun t => sched t = .arm (.channel (.read 0))

theorem upTo_succ (sched : Nat → Turn) (t : Nat) :
    upTo sched (t + 1) = upTo sched t ++ [sched t] := by
  rw [upTo, List.range_succ, List.map_append]
  rfl

theorem mem_upTo {sched : Nat → Turn} {t : Nat} {turn : Turn} (mem : turn ∈ upTo sched t) :
    ∃ u, sched u = turn := by
  obtain ⟨u, -, same⟩ := List.mem_map.mp mem
  exact ⟨u, same⟩

section tapes
variable {L : Layout}

def point (L : Layout) (b : UInt8) (sched : Nat → Turn) (t : Nat) : Point UInt8 :=
  (followed (L := L) b (upTo sched t)).1

def tapes (L : Layout) (b : UInt8) (sched : Nat → Turn) (t : Nat) : Histories L :=
  (followed b (upTo sched t)).2

variable {b : UInt8} {sched : Nat → Turn} {hs : Histories L}

variable (L b sched) in
theorem next (t : Nat) : (point L b sched (t + 1), tapes L b sched (t + 1)) =
    follow b (sched t) (point L b sched t, tapes L b sched t) := by
  rw [point, tapes, upTo_succ, followed, List.foldl_append]
  rfl

theorem write_some {n : Nat} (pos : 0 < n) (h : History UInt8 n) (x : UInt8) :
    0 < (h.write [x]).count := by
  change 0 < min (h.count + 1) n
  omega

theorem arm_keeps_flag {call : ChannelCall} (plain : Plain (.channel call))
    (some : 0 < (hs 1).count) : 0 < (after (opOf call) hs 1).count := by
  cases call with
  | write n buf =>
    by_cases same : n = 1
    · have written := after_same (.driverWrite n (buf.headD 0)) hs same
      rw [opOf, written]
      exact write_some (L.positive 1) _ _
    · rwa [opOf, after_other (.driverWrite n (buf.headD 0)) hs (Ne.symm same)]
  | read n =>
    have other : served n ≠ 1 := fun one => plain (served_eq_one.mp one)
    rwa [opOf, after_other (.driverRead (served n)) hs other.symm]

theorem arm_on_stream (hs : Histories L) {call : ChannelCall} (plain : Plain (.channel call)) :
    after (opOf call) hs 0 = hs 0 ∨
      call = .read 0 ∧ after (opOf call) hs 0 = (hs 0).read 1 := by
  cases call with
  | write n buf =>
    exact Or.inl (after_other (.driverWrite n (buf.headD 0)) hs (Ne.symm plain))
  | read n =>
    by_cases same : n = 0
    · subst same
      exact Or.inr ⟨rfl, after_same (.driverRead 0) hs rfl⟩
    · have other : served n ≠ 0 := fun zero => same (served_eq_zero.mp zero)
      exact Or.inl (after_other (.driverRead (served n)) hs other.symm)

/-- A flag byte that waits and is not zero opens the stream. -/
theorem flag_seen (some : 0 < (hs 1).count) (nonzero : ∀ x ∈ (hs 1).tape, x ≠ 0) :
    flagByte hs ≠ 0 := by
  have length := (hs 1).waiting_length
  have enough : (1 : Int32).toNatClampNeg ≤ (hs 1).count := some
  unfold flagByte
  simp only [Op.onHistory, if_pos enough]
  cases waits : (hs 1).waiting with
  | nil =>
    rw [waits] at length
    exact absurd length (Nat.ne_of_lt some)
  | cons x rest =>
    apply nonzero
    apply (hs 1).mem_tape_of_waiting
    rw [waits]
    exact List.mem_cons_self

theorem next_arm {t : Nat} {call : ChannelCall} (turn : sched t = .arm (.channel call)) :
    point L b sched (t + 1) = point L b sched t ∧
      tapes L b sched (t + 1) = after (opOf call) (tapes L b sched t) := by
  have step := next L b sched t
  rw [turn] at step
  exact Prod.mk.inj step

theorem Fair.turn (fair : Fair sched) (t : Nat) :
    sched t = .pru ∨ ∃ call, sched t = .arm (.channel call) ∧ Plain (.channel call) := by
  cases turn : sched t with
  | pru => exact Or.inl rfl
  | arm call =>
    have plain := fair.plain t call turn
    cases call with
    | init buf => exact plain.elim
    | channel call => exact Or.inr ⟨call, rfl, plain⟩

theorem Fair.plain_upTo (fair : Fair sched) (t : Nat) :
    ∀ call, .arm call ∈ upTo sched t → Plain call := by
  intro call mem
  obtain ⟨u, turn⟩ := mem_upTo mem
  exact fair.plain u call turn

theorem Fair.flags (fair : Fair sched) {m : Ram} (left : LeftByInit L m) (t : Nat) :
    ∀ x ∈ (tapes L b sched t 1).tape, x ≠ 0 := by
  obtain ⟨replies, m', n, -, going⟩ :=
    stream_follows left (fun _ => b) (upTo sched t) (fair.plain_upTo t)
  intro x mem
  obtain ⟨buf, written, byte⟩ := going.flags x mem
  obtain ⟨u, turn⟩ := mem_upTo written
  rw [← byte]
  exact fair.nonzero u buf turn

variable (L b sched)

def Before (p : Point UInt8) (t : Nat) : Prop :=
  point L b sched t = p ∧ 0 < (tapes L b sched t 1).count

def Looping (k t : Nat) : Prop :=
  (∃ i, point L b sched t = .loop i) ∧ k ≤ (tapes L b sched t 0).taken

def Ready (k t : Nat) : Prop := Looping L b sched k t ∧ 0 < (tapes L b sched t 0).count

variable {L b sched}

theorem Before.arm {p : Point UInt8} {t : Nat} (before : Before L b sched p t)
    {call : ChannelCall} (turn : sched t = .arm (.channel call)) (plain : Plain (.channel call)) :
    Before L b sched p (t + 1) := by
  obtain ⟨place, same⟩ := next_arm (L := L) (b := b) turn
  rw [Before, place, same]
  exact ⟨before.1, arm_keeps_flag plain before.2⟩

theorem Before.waitInit {t : Nat} (before : Before L b sched .waitInit t) (turn : sched t = .pru) :
    Before L b sched .waitFlag (t + 1) := by
  have step := next L b sched t
  rw [turn, before.1] at step
  obtain ⟨place, same⟩ := Prod.mk.inj step
  rw [Before, place, same]
  exact ⟨rfl, before.2⟩

theorem Before.waitFlag {t : Nat} (before : Before L b sched .waitFlag t) (turn : sched t = .pru)
    (nonzero : ∀ x ∈ (tapes L b sched t 1).tape, x ≠ 0) : Looping L b sched 0 (t + 1) := by
  have step := next L b sched t
  rw [turn, before.1] at step
  have place := (Prod.mk.inj step).1
  rw [if_neg (flag_seen before.2 nonzero)] at place
  exact ⟨⟨0, place⟩, Nat.zero_le _⟩

theorem Looping.pru {k t : Nat} (looping : Looping L b sched k t) (turn : sched t = .pru) :
    Ready L b sched k (t + 1) := by
  obtain ⟨⟨i, here⟩, taken⟩ := looping
  have step := next L b sched t
  rw [turn, here, follow] at step
  split at step
  · obtain ⟨place, same⟩ := Prod.mk.inj step
    rw [Ready, Looping, place, same, Function.update_self]
    exact ⟨⟨⟨i + 1, rfl⟩, taken⟩, write_some (L.positive 0) _ _⟩
  · rename_i full
    obtain ⟨place, same⟩ := Prod.mk.inj step
    rw [Ready, Looping, place, same]
    have pos := L.positive 0
    exact ⟨⟨⟨i, rfl⟩, taken⟩, by omega⟩

theorem Looping.arm {k t : Nat} (looping : Looping L b sched k t) {call : ChannelCall}
    (turn : sched t = .arm (.channel call)) (plain : Plain (.channel call)) :
    Looping L b sched k (t + 1) := by
  obtain ⟨place, next⟩ := next_arm (L := L) (b := b) turn
  rw [Looping, place, next]
  refine ⟨looping.1, ?_⟩
  rcases arm_on_stream (tapes L b sched t) plain with same | ⟨-, read⟩
  · rw [same]
    exact looping.2
  · rw [read]
    exact Nat.le_add_right_of_le looping.2

theorem Ready.arm {k t : Nat} (ready : Ready L b sched k t) {call : ChannelCall}
    (turn : sched t = .arm (.channel call)) (plain : Plain (.channel call)) :
    call = .read 0 ∧ Looping L b sched (k + 1) (t + 1) ∨
      call ≠ .read 0 ∧ Ready L b sched k (t + 1) := by
  obtain ⟨place, next⟩ := next_arm (L := L) (b := b) turn
  obtain ⟨⟨inside, taken⟩, some⟩ := ready
  rw [Ready, Looping, Looping, place, next]
  rcases arm_on_stream (tapes L b sched t) plain with same | ⟨here, read⟩
  · refine Or.inr ⟨?_, ?_⟩
    · rintro rfl
      have read := after_same (.driverRead 0) (tapes L b sched t) rfl
      have count := congrArg History.count (read.symm.trans same)
      change (tapes L b sched t 0).count - 1 = _ at count
      omega
    · rw [same]
      exact ⟨⟨inside, taken⟩, some⟩
  · refine Or.inl ⟨here, inside, ?_⟩
    rw [read]
    change k + 1 ≤ (tapes L b sched t 0).taken + min 1 (tapes L b sched t 0).count
    omega

section fair
variable (fair : Fair sched)
include fair

theorem leadsTo_waitFlag : LeadsTo (Before L b sched .waitInit) (Before L b sched .waitFlag) := by
  apply leadsTo_of_step fair.rounds
  · intro t before
    rcases fair.turn t with turn | ⟨call, turn, plain⟩
    · exact Or.inl (before.waitInit turn)
    · exact Or.inr (before.arm turn plain)
  · exact fun t before turn => before.waitInit turn

theorem leadsTo_loop {m : Ram} (left : LeftByInit L m) :
    LeadsTo (Before L b sched .waitFlag) (Looping L b sched 0) := by
  apply leadsTo_of_step fair.rounds
  · intro t before
    rcases fair.turn t with turn | ⟨call, turn, plain⟩
    · exact Or.inl (before.waitFlag turn (fair.flags left t))
    · exact Or.inr (before.arm turn plain)
  · exact fun t before turn => before.waitFlag turn (fair.flags left t)

theorem leadsTo_ready (k : Nat) : LeadsTo (Looping L b sched k) (Ready L b sched k) := by
  apply leadsTo_of_step fair.rounds
  · intro t looping
    rcases fair.turn t with turn | ⟨call, turn, plain⟩
    · exact Or.inl (looping.pru turn)
    · exact Or.inr (looping.arm turn plain)
  · exact fun t looping turn => looping.pru turn

theorem leadsTo_got (k : Nat) : LeadsTo (Ready L b sched k) (Looping L b sched (k + 1)) := by
  apply leadsTo_of_step fair.reads
  · intro t ready
    rcases fair.turn t with turn | ⟨call, turn, plain⟩
    · exact Or.inr (ready.1.pru turn)
    · rcases ready.arm turn plain with ⟨-, got⟩ | ⟨-, still⟩
      · exact Or.inl got
      · exact Or.inr still
  · intro t ready turn
    rcases ready.arm turn (fair.plain t _ turn) with ⟨-, got⟩ | ⟨other, -⟩
    · exact got
    · exact absurd rfl other

theorem loop_reached {m : Ram} (left : LeftByInit L m) : ∃ t, Looping L b sched 0 t := by
  obtain ⟨t, buf, turn⟩ := fair.flag
  obtain ⟨place, next⟩ := next_arm (L := L) (b := b) turn
  have some : 0 < (tapes L b sched (t + 1) 1).count := by
    rw [next, opOf, after_same (c := 1) (.driverWrite 1 (buf.headD 0)) _ rfl]
    exact write_some (L.positive 1) _ _
  have flagged : LeadsTo (Before L b sched .waitFlag) (Looping L b sched 0) :=
    leadsTo_loop fair left
  cases here : point L b sched (t + 1) with
  | waitInit =>
    obtain ⟨u, -, reached⟩ := (leadsTo_waitFlag fair).trans flagged (t + 1) ⟨here, some⟩
    exact ⟨u, reached⟩
  | waitFlag =>
    obtain ⟨u, -, reached⟩ := flagged (t + 1) ⟨here, some⟩
    exact ⟨u, reached⟩
  | loop i => exact ⟨t + 1, ⟨i, here⟩, Nat.zero_le _⟩

end fair

end tapes

/-- The stream does not come to rest: in a run without end in which the ARM writes a flag and keeps
    reading and the program keeps its turns, the ARM gets any number of bytes. -/
theorem stream_program_live (L : Layout) (m : Ram) (left : LeftByInit L m) (behind : Nat → UInt8)
    (sent : behind 1 ≠ 0) (sched : Nat → Turn) (fair : Fair sched) (k : Nat) :
    ∃ t replies p m', Simulation.run (byteStreamWrite behind).step (upTo sched t) (.waitInit, m) =
        .ok (replies, (p, m')) ∧
      k ≤ (texts (upTo sched t) replies).count [behind 1, 10] := by
  obtain ⟨u, start⟩ : ∃ u, Looping L (behind 1) sched 0 u := loop_reached fair left
  have next : ∀ k, LeadsTo (Looping L (behind 1) sched k) (Looping L (behind 1) sched (k + 1)) :=
    fun k => (leadsTo_ready fair k).trans (leadsTo_got fair k)
  obtain ⟨t, -, -, got⟩ := LeadsTo.unbounded next k u start
  obtain ⟨replies, m', n, run, going⟩ :=
    stream_follows left behind (upTo sched t) (fair.plain_upTo t)
  exact ⟨t, replies, _, m', run, by rw [going.taken sent]; exact got⟩

def inTurn (t : Nat) : Turn :=
  if t = 0 then .arm (.channel (.write 1 [9]))
  else if t % 2 = 1 then .pru else .arm (.channel (.read 0))

theorem inTurn_odd (t : Nat) : inTurn (2 * t + 1) = .pru := by
  rw [inTurn, if_neg (by omega), if_pos (by omega)]

theorem inTurn_even (t : Nat) : inTurn (2 * t + 2) = .arm (.channel (.read 0)) := by
  rw [inTurn, if_neg (by omega), if_neg (by omega)]

theorem inTurn_fair : Fair inTurn := by
  constructor
  · intro t call turn
    unfold inTurn at turn
    split at turn
    · cases turn
      exact (by decide : (1 : Channel) ≠ 0)
    · split at turn
      · cases turn
      · cases turn
        exact (by decide : (0 : Channel) ≠ 1)
  · exact ⟨0, [9], rfl⟩
  · intro t buf turn
    unfold inTurn at turn
    split at turn
    · cases turn
      decide
    · split at turn
      · cases turn
      · cases turn
  · exact fun t => ⟨2 * t + 1, by omega, inTurn_odd t⟩
  · exact fun t => ⟨2 * t + 2, by omega, inTurn_even t⟩

theorem stream_program_live_hundred : ∃ t replies p m',
    Simulation.run (byteStreamWrite fun _ => 7).step (upTo inTurn t) (.waitInit, pairsRam) =
        .ok (replies, (p, m')) ∧
      100 ≤ (texts (upTo inTurn t) replies).count [7, 10] :=
  stream_program_live pairs pairsRam pairsRam_left (fun _ => 7) (by decide) inTurn inTurn_fair 100

/-- Flags of zero that overflow channel 2 hide a later one: after two of the three are read, the
    nine is stored where the program does not look next. -/
example : (Simulation.run (byteStreamWrite fun _ => 7).step
    [.pru, .arm (.channel (.write 1 [0])), .arm (.channel (.write 1 [0])),
      .arm (.channel (.write 1 [0])), .pru, .pru, .arm (.channel (.write 1 [9])), .pru, .pru,
      .pru] (.waitInit, pairsRam)).toOption.map (fun r => (r.2.1, unread r.2.2 1)) =
    some (.waitFlag, []) := by
  decide +kernel

end PruBridge.Program
