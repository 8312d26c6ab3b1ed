import PruBridge.BulkTransfer

/-!
What the firmware touches of the caller's array. Its accesses are told by their index, so an
array of `n` bytes is left by an index from `n` on.
-/
namespace PruBridge
open AtomicProgram MachineWords

def payloadLoaded : Access Cell Cell.Val → Option Nat
  | .load (.pruData i) => some i
  | _ => none

def payloadStored : Access Cell Cell.Val → Option Nat
  | .store (.pruData i) _ => some i
  | _ => none

def payloadLoads {α : Type} (p : Code α) (m : Ram) : List Nat :=
  (p.trace m).filterMap payloadLoaded

def payloadStores {α : Type} (p : Code α) (m : Ram) : List Nat :=
  (p.trace m).filterMap payloadStored

/-- Every index of an array of `n` bytes once, and none outside of it. -/
def EachOnce (indices : List Nat) (n : Nat) : Prop := indices.Perm (List.range n)

section loops
variable {m : Ram} {c : Channel}

theorem payloadLoads_bind {α β : Type} {p : Code α} {f : α → Code β} {m' : Ram} {a : α}
    (first : p.run m = .ok (a, m')) :
    payloadLoads (p >>= f) m = payloadLoads p m ++ payloadLoads (f a) m' := by
  rw [payloadLoads, Prog.trace_bind_ok first, List.filterMap_append]
  rfl

/-- The loop goes down to index 1, and starts one behind the last byte. -/
theorem writeLoop_loads (nonzero : m.channelSize c ≠ 0) (i : Nat) :
    payloadLoads (Firmware.writeLoop c i) m = (List.range' 1 i).reverse := by
  induction i generalizing m with
  | zero => rfl
  | succ i ih =>
    have later := ih (m := pushed m c (m.pruData (i + 1))) nonzero
    have down : (List.range' 1 (i + 1)).reverse = (i + 1) :: (List.range' 1 i).reverse := by
      rw [List.range'_1_concat, List.reverse_append, Nat.add_comm 1 i]
      rfl
    unfold payloadLoads
    rw [writeLoop_trace nonzero, List.filterMap_append, down, ← later]
    rfl

theorem countUp_loads (length : Int32) : payloadLoads (Firmware.countUp c length) m = [] := by
  by_cases room : m.indexData c + length.toUInt32 < m.channelSize c
  · simp [payloadLoads, Firmware.countUp, room, payloadLoaded]
  · simp [payloadLoads, Firmware.countUp, room, payloadLoaded]

theorem firmwareWrite_loads (nonzero : m.channelSize c ≠ 0) (length : Int32) :
    payloadLoads (Firmware.writeBuffer c length) m =
      (List.range' 1 length.toNatClampNeg).reverse := by
  have loop := writeLoop_pushes nonzero length.toNatClampNeg
  have loads := writeLoop_loads nonzero length.toNatClampNeg
  unfold Firmware.writeBuffer
  rw [payloadLoads_bind loop, loads, payloadLoads_bind (countUp_counts length), countUp_loads]
  exact List.append_nil _

def copied (m : Ram) (c : Channel) (i : Nat) : Ram :=
  { sought m c with
    pruData := Function.update m.pruData i (m.data (m.bufferStart c + m.head c)) }

/-- The loop goes up from `i`. It leaves the counter and the size. -/
theorem readLoop_stores (nonzero : m.channelSize c ≠ 0) (left i : Nat) :
    payloadStores (Firmware.readLoop c left i) m = List.range' i left ∧
    ∃ m', (Firmware.readLoop c left i).run m = .ok ((), m') ∧
      m'.indexData = m.indexData ∧ m'.channelSize = m.channelSize := by
  induction left generalizing m i with
  | zero => exact ⟨rfl, m, rfl, rfl, rfl⟩
  | succ left ih =>
    obtain ⟨later, m', run, index, size⟩ := ih (m := copied m c i) nonzero (i + 1)
    have accesses : (Firmware.readLoop c (left + 1) i).trace m =
        [.load (.bufferStart c), .load (.head c), .load (.data (m.bufferStart c + m.head c)),
          .store (.pruData i) (m.data (m.bufferStart c + m.head c)), .load (.head c),
          .load (.channelSize c), .store (.head c) ((m.head c + 1) % m.channelSize c)] ++
        (Firmware.readLoop c left (i + 1)).trace (copied m c i) := by
      simp [Firmware.readLoop, headCell, advanceHead, umod_pos _ nonzero, copied, sought]
    constructor
    · unfold payloadStores
      rw [accesses, List.filterMap_append, List.range'_succ]
      exact congrArg (i :: ·) later
    · refine ⟨m', ?_, index, size⟩
      rw [← run]
      simp [Firmware.readLoop, headCell, advanceHead, umod_pos _ nonzero, copied, sought]

theorem firmwareRead_passed (nonzero : m.channelSize c ≠ 0) {length : Int32}
    (guard : (m.indexData c).toInt32 - length ≥ 0) :
    payloadStores (Firmware.readBuffer c length) m = List.range length.toNatClampNeg ∧
    ∃ m', (Firmware.readBuffer c length).run m = .ok (0, m') ∧
      m'.indexData c = m.indexData c - length.toUInt32 ∧ m'.channelSize = m.channelSize := by
  obtain ⟨stores, m', run, index, size⟩ := readLoop_stores nonzero length.toNatClampNeg 0
  constructor
  · have accesses : (Firmware.readBuffer c length).trace m =
        [.load (.indexData c)] ++ (Firmware.readLoop c length.toNatClampNeg 0).trace m ++
          [.load (.indexData c),
            .store (.indexData c) (m'.indexData c - length.toUInt32)] := by
      simp [Firmware.readBuffer, guard, Prog.trace_bind_ok run]
    unfold payloadStores at stores ⊢
    rw [accesses, List.filterMap_append, List.filterMap_append, stores, ← List.range_eq_range']
    exact List.append_nil _
  · have count : (recounted m' c (m'.indexData c - length.toUInt32)).indexData c =
        m.indexData c - length.toUInt32 := by
      rw [recounted_indexData, index]
    exact ⟨_, firmwareRead_guarded guard run, count, size⟩

theorem firmwareRead_stopped {length : Int32}
    (guard : ¬ (m.indexData c).toInt32 - length ≥ 0) :
    payloadStores (Firmware.readBuffer c length) m = [] ∧
    (Firmware.readBuffer c length).run m = .ok (-1, m) := by
  constructor
  · simp [payloadStores, Firmware.readBuffer, guard, payloadStored]
  · simp [Firmware.readBuffer, guard]

end loops

/-- A write takes the bytes 1 to `length` of an array that ends before byte `length`, so it stays
    inside only when it takes none. A read that returns 0 fills its array and nothing else. -/
theorem payload_inside_iff (m : Ram) (c : Channel) (nonzero : m.channelSize c ≠ 0)
    (length : Int32) (nonneg : 0 ≤ length) :
    (EachOnce (payloadLoads (Firmware.writeBuffer c length) m) length.toNatClampNeg ↔
      length = 0) ∧
    ∀ m', (Firmware.readBuffer c length).run m = .ok (0, m') →
      EachOnce (payloadStores (Firmware.readBuffer c length) m) length.toNatClampNeg := by
  constructor
  · unfold EachOnce
    rw [firmwareWrite_loads nonzero]
    constructor
    · intro once
      by_contra other
      have value := toInt_length nonneg
      have some : length.toNatClampNeg ≠ 0 := by
        intro none
        rw [none] at value
        exact other (Int32.toInt_inj.mp value)
      -- the loop reads the index `length`
      have past : length.toNatClampNeg ∈ (List.range' 1 length.toNatClampNeg).reverse := by
        rw [List.mem_reverse, List.mem_range'_1]
        omega
      have inside := List.mem_range.mp (once.mem_iff.mp past)
      omega
    · intro zero
      subst zero
      exact List.Perm.refl _
  · intro m' run
    by_cases guard : (m.indexData c).toInt32 - length ≥ 0
    · rw [(firmwareRead_passed nonzero guard).1]
      exact List.Perm.refl _
    · rw [(firmwareRead_stopped guard).2] at run
      cases run

theorem payload_inside_two :
    (EachOnce (payloadLoads (Firmware.writeBuffer 1 2) acrossEnd) 2 ↔ (2 : Int32) = 0) ∧
    ∀ m', (Firmware.readBuffer 1 2).run acrossEnd = .ok (0, m') →
      EachOnce (payloadStores (Firmware.readBuffer 1 2) acrossEnd) 2 :=
  payload_inside_iff acrossEnd 1 (by decide) 2 (by decide)

/-- A write of one byte reads the byte behind it. -/
theorem payload_read_past : AfterInit pairsRam ∧
    payloadLoads (Firmware.writeBuffer 0 1) pairsRam = [1] ∧
    ¬ EachOnce (payloadLoads (Firmware.writeBuffer 0 1) pairsRam) 1 := by
  have loads : payloadLoads (Firmware.writeBuffer 0 1) pairsRam = [1] :=
    firmwareWrite_loads (by decide) 1
  refine ⟨pairsRam_left.init, loads, ?_⟩
  intro once
  rw [loads] at once
  have inside := List.mem_range.mp (once.mem_iff.mp (List.mem_singleton_self 1))
  omega

end PruBridge
