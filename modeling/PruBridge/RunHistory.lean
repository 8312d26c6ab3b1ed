import PruBridge.Simulation
import PruBridge.Tape
import PruBridge.Tracking

/-!
What every run of whole operations gives back, writes on full channels included. A channel is
a tape of all bytes stored in it, the number of bytes taken, and the counter.
-/
namespace PruBridge
open AtomicProgram CircularBuffer

def Op.onHistory {n : Nat} : Op → History UInt8 n → Outcome × History UInt8 n
  | .driverWrite _ b, h => (⟨.void, []⟩, h.write [b])
  | .driverRead _, h => (⟨.byte (h.waiting.headD 0), []⟩, h.read 1)
  | .firmwareWrite _ pruData length, h =>
    (⟨.int 0, []⟩, h.write (storedBytes pruData length.toNatClampNeg))
  | .firmwareRead _ length, h =>
    if length.toNatClampNeg ≤ h.count then
      (⟨.int 0, h.waiting.take length.toNatClampNeg⟩, h.read length.toNatClampNeg)
    else (⟨.int (-1), []⟩, h)

abbrev Histories (L : Layout) := (c : Channel) → History UInt8 (L.size c)

def historyStep (L : Layout) (op : Op) (hs : Histories L) : Except Empty (Outcome × Histories L) :=
  .ok ((op.onHistory (hs op.channel)).1,
    Function.update hs op.channel (op.onHistory (hs op.channel)).2)

structure Remembers (L : Layout) (m : Ram) (hs : Histories L) : Prop where
  laid : Laid L m
  ring : ∀ c, ∃ r : Ring UInt8 (L.size c), Encodes m c r ∧ r.Records (hs c)

section ring
variable {n : Nat} {r : Ring UInt8 n} {h : History UInt8 n}

theorem waiting_head (records : r.Records h) (some : r.count ≠ 0) :
    h.waiting.headD 0 = r.cells r.head := by
  obtain ⟨k, count⟩ := Nat.exists_eq_succ_of_ne_zero some
  rw [← records.unread, Ring.unread, count, Nat.succ_eq_add_one, window_cons]
  rfl

theorem waiting_none (none : h.count = 0) : h.waiting.headD 0 = 0 := by
  have length := h.waiting_length
  rw [none] at length
  rw [List.length_eq_zero_iff.mp length]
  rfl

theorem ringOutcome_history (op : Op) (records : r.Records h) :
    op.ringOutcome r = (op.onHistory h).1 := by
  have count := records.count
  cases op with
  | driverWrite c b => rfl
  | driverRead c =>
    by_cases none : r.count = 0
    · simp only [Op.ringOutcome, Op.onHistory, none, ↓reduceIte]
      rw [waiting_none (count ▸ none)]
    · simp only [Op.ringOutcome, Op.onHistory, none, ↓reduceIte]
      rw [waiting_head records none]
  | firmwareWrite c pruData length => rfl
  | firmwareRead c length =>
    simp only [Op.ringOutcome, Op.onHistory, count]
    split
    · rename_i enough
      have front := window_take r.cells r.head r.count length.toNatClampNeg (by omega)
      rw [← records.unread, Ring.unread, front]
    · rfl

theorem onRing_history (op : Op) (records : r.Records h) :
    (op.onRing r).Records (op.onHistory h).2 := by
  have count := records.count
  cases op with
  | driverWrite c b => exact records.put b
  | driverRead c =>
    have taken : h.read 1 = h.read (min 1 h.count) := by
      have one : min (min 1 h.count) h.count = min 1 h.count := by omega
      have rest : h.count - min 1 h.count = h.count - 1 := by omega
      simp only [History.read, one, rest]
    change (r.release (min 1 r.count)).Records (h.read 1)
    rw [taken, count]
    exact records.release (Nat.min_le_right _ _)
  | firmwareWrite c pruData length => exact records.putAll _
  | firmwareRead c length =>
    simp only [Op.onRing, Op.onHistory, count]
    split
    · rename_i enough
      exact records.release enough
    · exact records

end ring

theorem exec_simulates (L : Layout) :
    Simulation.Simulates Op.exec (historyStep L) Op.Nonneg (Remembers L) := by
  intro op m hs nonneg remembers
  obtain ⟨r, encodes, records⟩ := remembers.ring op.channel
  obtain ⟨m', run, encodes', frame⟩ :=
    exec_ring op (fun _ => L.size_small op.channel) nonneg encodes
  rw [ringOutcome_history op records] at run
  refine ⟨_, m', _, run, rfl, remembers.laid.frame frame, ?_⟩
  intro c
  by_cases same : c = op.channel
  · subst same
    rw [Function.update_self]
    exact ⟨_, encodes', onRing_history op records⟩
  · obtain ⟨s, encodesc, recordsc⟩ := remembers.ring c
    rw [Function.update_of_ne same]
    exact ⟨s, encodesc.frame remembers.laid same frame, recordsc⟩

theorem LeftByInit.remembers {L : Layout} {m : Ram} (left : LeftByInit L m) :
    Remembers L m (fun _ => History.empty) := by
  refine ⟨left.laid, ?_⟩
  intro c
  obtain ⟨r, encodes, follows⟩ := left.init.ring (left.size c) (L.positive c)
  obtain ⟨-, head, tail⟩ := left.init.empty c
  refine ⟨r, encodes, Ring.records_empty r ?_ ?_ follows.count⟩
  · rw [← encodes.head, head]
    rfl
  · rw [← encodes.tail, tail]
    rfl

/-- Every run of driver and firmware calls of any lengths from 0 on, over ten channels that an
    init left: each call answers what the tape of its channel says, and so does what is left
    unread. -/
theorem runs_remembered (L : Layout) (m : Ram) (left : LeftByInit L m) (ops : List Op)
    (nonneg : ∀ op ∈ ops, op.Nonneg) :
    ∃ outs m' hs, Simulation.run Op.exec ops m = .ok (outs, m') ∧
      Simulation.run (historyStep L) ops (fun _ => History.empty) = .ok (outs, hs) ∧
      ∀ c, (m'.indexData c).toNat = (hs c).count ∧ unread m' c = (hs c).waiting := by
  obtain ⟨outs, m', hs, run, told, remembers⟩ := (exec_simulates L).run nonneg left.remembers
  refine ⟨outs, m', hs, run, told, ?_⟩
  intro c
  obtain ⟨r, encodes, records⟩ := remembers.ring c
  rw [encodes.count, encodes.unread]
  exact ⟨records.count, records.unread⟩

/-- Three bytes for a ring of two: the reads give the third and then the second. -/
theorem runs_remembered_overflow : ∃ m', Simulation.run Op.exec
    [.driverWrite 0 1, .driverWrite 0 2, .driverWrite 0 3, .driverRead 0, .driverRead 0] pairsRam =
      .ok ([⟨.void, []⟩, ⟨.void, []⟩, ⟨.void, []⟩, ⟨.byte 3, []⟩, ⟨.byte 2, []⟩], m') := by
  obtain ⟨outs, m', hs, run, told, -⟩ := runs_remembered pairs pairsRam pairsRam_left
    [.driverWrite 0 1, .driverWrite 0 2, .driverWrite 0 3, .driverRead 0, .driverRead 0]
    (by simp [Op.Nonneg])
  cases told
  exact ⟨m', run⟩

end PruBridge
