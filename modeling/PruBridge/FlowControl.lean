import PruBridge.RingBounds

/-!
Flow control of the firmware by `check_index`: which cells the next `write_buffer` stores
into, and which cells the reader takes to be unread before and after it.
-/
namespace PruBridge.FlowControl
open AtomicProgram CircularBuffer

def dataStore : Access Cell Cell.Val → Option UInt32
  | .store (.data k) _ => some k
  | _ => none

def storedCells (op : Op) (m : Ram) : List UInt32 :=
  (op.body.trace (op.prepare m)).filterMap dataStore

/-- The write spares the unread cells, and the reader finds its cells behind them. -/
structure Sound (m : Ram) (c : Channel) (pruData : Nat → UInt8) (length : Int32) : Prop where
  disjoint : ∀ k ∈ storedCells (.firmwareWrite c pruData length) m, k ∉ unreadCells m c
  appended : ∃ out m', (Op.firmwareWrite c pruData length).execInside m = some (out, m') ∧
    unreadCells m' c = unreadCells m c ++ storedCells (.firmwareWrite c pruData length) m

section cells
variable {m : Ram} {c : Channel} {n : Nat} {r : Ring UInt8 n}

theorem writeLoop_cells (h : Encodes m c r) (i : Nat) :
    ((Firmware.writeLoop c i).trace m).filterMap dataStore =
      window (address (m.bufferStart c)) r.tail i := by
  induction i generalizing m r with
  | zero => rfl
  | succ i ih =>
    have later := ih (h.push (m.pruData (i + 1)))
    have here : address (m.bufferStart c) r.tail = m.bufferStart c + m.tail c := by
      rw [address, ofNat_word h.tail]
    rw [window_cons, here]
    simpa [Firmware.writeLoop, tailCell, advanceTail, umod_pos _ h.pos, dataStore, pushed,
      List.filterMap_cons, Ring.push] using later

theorem countUp_cells (m : Ram) (c : Channel) (length : Int32) :
    ((Firmware.countUp c length).trace m).filterMap dataStore = [] := by
  by_cases room : m.indexData c + length.toUInt32 < m.channelSize c
  · simp [Firmware.countUp, room, dataStore, List.filterMap_cons]
  · simp [Firmware.countUp, room, dataStore, List.filterMap_cons]

theorem storedCells_eq (h : Encodes m c r) (pruData : Nat → UInt8) (length : Int32) :
    storedCells (.firmwareWrite c pruData length) m =
      window (address (m.bufferStart c)) r.tail length.toNatClampNeg := by
  have prepared := h.prepare (.firmwareWrite c pruData length)
  obtain ⟨m', loop, -, -, -⟩ := prepared.writeLoop length.toNatClampNeg
  have cells := writeLoop_cells prepared length.toNatClampNeg
  have count : ((Firmware.countUp c length >>= fun _ => (pure 0 : Code Int32)).trace m').filterMap
      dataStore = [] := by
    rw [Prog.trace_bind_ok (countUp_counts length), List.filterMap_append, countUp_cells]
    rfl
  change ((Ret.int <$> Firmware.writeBuffer c length).trace _).filterMap dataStore = _
  rw [Prog.trace_map, Firmware.writeBuffer, Prog.trace_bind_ok loop, List.filterMap_append, cells,
    count, List.append_nil]
  rfl

theorem window_disjoint {start : UInt32} (word : n < 2 ^ 32) {i : Fin n} {len k : Nat}
    (room : len + k ≤ n) {a : UInt32} (behind : a ∈ window (address start) (around i len) k) :
    a ∉ window (address start) i len := by
  intro inside
  obtain ⟨j, hj, rfl⟩ := List.mem_map.mp inside
  obtain ⟨l, hl, same⟩ := List.mem_map.mp behind
  rw [List.mem_range] at hj hl
  rw [around_around] at same
  have places := around_injective i (by omega) (by omega) (address_injective word same)
  omega

end cells

theorem sound_iff {m : Ram} {c : Channel} {n lead : Nat} (leads : Leads m c n lead)
    (small : n < 2 ^ 31) (pruData : Nat → UInt8) {length : Int32} (nonneg : 0 ≤ length)
    (room : length ≤ Firmware.free m c) :
    Sound m c pruData length ↔ CellsFit m c (m.tail c) length.toNatClampNeg ∧
      (length.toNatClampNeg = 0 ∨ n ∣ lead) := by
  obtain ⟨r, q, encodes, follows⟩ := leads
  have reaches := firmwareWrite_op_inBounds_iff encodes.tail_lt pruData length
  have word := encodes.size_lt
  have fits := encodes.room small nonneg room
  have stored := storedCells_eq encodes pruData length
  have before := encodes.unreadCells
  obtain ⟨m', run, encodes', frame⟩ :=
    exec_ring (.firmwareWrite c pruData length) (fun _ => small) nonneg encodes
  have after : unreadCells m' c = unreadCells m c ++
      window (address (m.bufferStart c)) (around r.head r.count) length.toNatClampNeg := by
    have cells := encodes'.unreadCells
    have full : min (r.count + length.toNatClampNeg) n = r.count + length.toNatClampNeg := by omega
    simp only [Op.channel, Op.onRing, frame.bufferStart, Ring.putAll_head, Ring.putAll_count,
      storedBytes_length, full] at cells
    rw [cells, before, window_append]
  have tail := follows.tail_iff
  rw [← follows.count] at tail
  constructor
  · rintro ⟨-, out, m₁, again, appended⟩
    obtain ⟨inside, again⟩ := execInside_iff.mp again
    rw [run] at again
    cases again
    rw [after, stored] at appended
    have cells := List.append_cancel_left appended
    refine ⟨reaches.mp inside, ?_⟩
    by_cases none : length.toNatClampNeg = 0
    · exact Or.inl none
    · obtain ⟨k, some⟩ := Nat.exists_eq_succ_of_ne_zero none
      rw [some, window_cons, window_cons] at cells
      have first := address_injective word (List.cons.inj cells).1
      exact Or.inr (tail.mp first.symm)
  · rintro ⟨inside, condition⟩
    have cells : storedCells (.firmwareWrite c pruData length) m =
        window (address (m.bufferStart c)) (around r.head r.count) length.toNatClampNeg := by
      rw [stored]
      rcases condition with none | turns
      · rw [none]; rfl
      · rw [tail.mpr turns]
    have call := execInside_iff.mpr ⟨reaches.mpr inside, run⟩
    refine ⟨fun k mem => ?_, _, m', call, by rw [after, cells]⟩
    rw [cells] at mem
    rw [before]
    exact window_disjoint word fits mem

/-- Flow control by `check_index` is sound after a run exactly when the cells that the write takes
    are in `ring->data`, and the bytes that earlier writes stored into the full channel are a
    multiple of its size. -/
theorem flow_control_sound_iff (m : Ram) (init : AfterInit m) (c : Channel)
    (pos : 0 < (m.channelSize c).toNat) (small : (m.channelSize c).toNat < 2 ^ 31)
    (ops : List Op) (nonneg : ∀ op ∈ ops, op.Nonneg) (outs : List Outcome) (m' : Ram)
    (run : runInside ops m = some (outs, m')) (pruData : Nat → UInt8) (length : Int32)
    (natural : 0 ≤ length) (room : length ≤ Firmware.free m' c) :
    Sound m' c pruData length ↔ CellsFit m' c (m'.tail c) length.toNatClampNeg ∧
      (length.toNatClampNeg = 0 ∨ (m.channelSize c).toNat ∣ overflow c ops m) := by
  have leads := (init.leads rfl pos).run small nonneg (runOps_of_inside run)
  rw [Nat.zero_add] at leads
  exact sound_iff leads small pruData natural room

theorem flow_control_sound_full_turn : ∃ outs m',
    runInside [.driverWrite 0 1, .driverWrite 0 2, .driverWrite 0 3, .driverWrite 0 4,
      .driverRead 0, .driverRead 0] pairsRam = some (outs, m') ∧ Sound m' 0 (fun _ => 5) 2 := by
  refine ⟨_, _, rfl, ?_⟩
  refine (flow_control_sound_iff pairsRam pairsRam_left.init 0 (by decide) (by decide)
    [.driverWrite 0 1, .driverWrite 0 2, .driverWrite 0 3, .driverWrite 0 4, .driverRead 0,
      .driverRead 0] (by decide) _ _ rfl _ 2 (by decide) (by decide)).mpr ⟨?_, Or.inr ?_⟩
  · decide
  · decide

/-- One overwritten byte: `check_index` promises a free cell, and the write lands on the
    byte that is read next. -/
theorem flow_control_overwrites_unread : AfterInit pairsRam ∧ ∃ outs m',
    runInside [.driverWrite 0 1, .driverWrite 0 2, .driverWrite 0 3, .driverRead 0] pairsRam =
      some (outs, m') ∧ (1 : Int32) ≤ Firmware.free m' 0 ∧ ¬ Sound m' 0 (fun _ => 5) 1 := by
  refine ⟨pairsRam_left.init, _, _, rfl, by decide, ?_⟩
  rintro ⟨disjoint, -⟩
  exact disjoint 1 (by decide) (by decide)

end PruBridge.FlowControl
