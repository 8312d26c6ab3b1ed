import PruBridge.RingBounds

/-!
A payload from the PRU to the ARM: one `write_buffer` of the firmware, and the driver
reads that drain the channel. The writer takes its bytes from the far end of the array
and one place behind it, so the payload arrives as it lies in memory only by accident.
-/
namespace PruBridge.RoundTrip
open AtomicProgram CircularBuffer MachineWords

def payload (pruData : Nat → UInt8) (n : Nat) : List UInt8 := (List.range n).map pruData

def drain (c : Channel) (n : Nat) : List Op := List.replicate n (.driverRead c)

/-- After the write, as many reads as there are pending and written bytes return the
    pending bytes and then the payload in memory order. -/
def Delivered (m : Ram) (c : Channel) (pruData : Nat → UInt8) (length : Int32) : Prop :=
  ∃ out m₁ m₂, (Op.firmwareWrite c pruData length).execInside m = some (out, m₁) ∧
    runInside (drain c ((unread m c).length + length.toNatClampNeg)) m₁ =
      some ((unread m c ++ payload pruData length.toNatClampNeg).map fun b => ⟨.byte b, []⟩, m₂)

theorem payload_succ (pruData : Nat → UInt8) (k : Nat) :
    payload pruData (k + 1) = pruData 0 :: payload (fun i => pruData (i + 1)) k := by
  simp [payload, List.range_succ_eq_map, Function.comp_def]

/-- The stored bytes are the array from offset 1 on, backwards. -/
theorem storedBytes_eq (pruData : Nat → UInt8) (n : Nat) :
    storedBytes pruData n = (payload (fun i => pruData (i + 1)) n).reverse := by
  induction n with
  | zero => rfl
  | succ i ih => simp [storedBytes, ih, payload, List.range_succ]

theorem storedBytes_in_order_iff (pruData : Nat → UInt8) {n : Nat} (pos : 0 < n) :
    storedBytes pruData n = payload pruData n ↔
      pruData n = pruData 0 ∧ (payload pruData n).tail.reverse = (payload pruData n).tail := by
  obtain ⟨k, rfl⟩ := Nat.exists_eq_succ_of_ne_zero (Nat.ne_of_gt pos)
  rw [Nat.succ_eq_add_one, payload_succ, List.tail_cons, storedBytes, storedBytes_eq,
    List.cons_eq_cons]

theorem drain_run {m : Ram} {c : Channel} {n : Nat} {r : Ring UInt8 n} {q : List UInt8}
    (encodes : Encodes m c r) (follows : r.Follows q 0) :
    ∃ m', runOps (drain c q.length) m = .ok (q.map fun b => ⟨.byte b, []⟩, m') := by
  induction q generalizing m r with
  | nil => exact ⟨m, rfl⟩
  | cons b rest ih =>
    obtain ⟨m₁, run, encodes', -⟩ := exec_ring (.driverRead c) (by rintro ⟨⟩) trivial encodes
    have next := onRing_follows (.driverRead c) follows
    have outcome := ringOutcome_eq (.driverRead c) follows (Nat.dvd_zero n)
    have none : 0 + ((b :: rest).length + (Op.driverRead c).writes - n) = 0 := by
      have le := follows.length_le
      simp only [Op.writes]
      omega
    rw [none] at next
    obtain ⟨m', later⟩ := ih encodes' next
    refine ⟨m', ?_⟩
    change runOps (.driverRead c :: drain c rest.length) m = _
    rw [runOps, run, outcome]
    simp only [later]
    rfl

theorem drain_inside_iff {m : Ram} {c : Channel} (head : m.head c < m.channelSize c) (k : Nat)
    (enough : k ≤ (m.indexData c).toNat) :
    (∃ result, runInside (drain c k) m = some result) ↔ CellsFit m c (m.head c) k := by
  induction k generalizing m with
  | zero => exact iff_of_true ⟨_, rfl⟩ (cellsFit_zero _)
  | succ k ih =>
    have nonzero := ne_zero_of_lt head
    have some : m.indexData c ≠ 0 := by
      intro none
      rw [none, UInt32.toNat_zero] at enough
      omega
    have call := exec_of_run (.driverRead c)
      (Prog.run_map_ok (Driver.readBuffer_run m c nonzero some))
    have reaches := driverRead_op_inBounds_iff head
    have count := toNat_sub_one some
    have next : (Driver.consumed m c).head c < (Driver.consumed m c).channelSize c := by
      rw [Driver.consumed_head]
      exact next_lt head
    have later := ih next (by rw [Driver.consumed_indexData, count]; omega)
    rw [Driver.consumed_head] at later
    rw [cellsFit_succ head, ← cellsFit_one head]
    constructor
    · rintro ⟨⟨outs, m'⟩, run⟩
      obtain ⟨out, m₁, rest, first, others, -⟩ := runInside_cons_iff.mp run
      obtain ⟨inside, again⟩ := execInside_iff.mp first
      rw [call] at again
      cases again
      exact ⟨reaches.mp inside some, later.mp ⟨_, others⟩⟩
    · rintro ⟨here, others⟩
      obtain ⟨⟨outs, m'⟩, run⟩ := later.mpr others
      have first := execInside_iff.mpr ⟨reaches.mpr fun _ => here, call⟩
      exact ⟨_, runInside_cons_iff.mpr ⟨_, _, outs, first, run, rfl⟩⟩

section delivery
variable {m : Ram} {c : Channel} {n : Nat} {r : Ring UInt8 n} {q : List UInt8}

theorem tail_behind (encodes : Encodes m c r) (follows : r.Follows q 0) : (m.tail c).toNat =
    ((m.head c).toNat + (m.indexData c).toNat) % (m.channelSize c).toNat := by
  have behind := follows.tail_iff.mpr (Nat.dvd_zero n)
  rw [encodes.tail, encodes.head, encodes.size, encodes.count, follows.count, behind]
  rfl

theorem write_drained (encodes : Encodes m c r) (follows : r.Follows q 0) (small : n < 2 ^ 31)
    (pruData : Nat → UInt8) {length : Int32} (nonneg : 0 ≤ length)
    (room : length ≤ Firmware.free m c) :
    ∃ out m₁ m₂, (Op.firmwareWrite c pruData length).exec m = .ok (out, m₁) ∧
      runOps (drain c ((unread m c).length + length.toNatClampNeg)) m₁ =
        .ok ((unread m c ++ storedBytes pruData length.toNatClampNeg).map
          fun b => ⟨.byte b, []⟩, m₂) ∧
      ((∃ result, runInside (drain c ((unread m c).length + length.toNatClampNeg)) m₁ =
        some result) ↔
          CellsFit m c (m.head c) ((m.indexData c).toNat + length.toNatClampNeg)) := by
  have fits := encodes.room small nonneg room
  have pending : unread m c = q := by rw [encodes.unread, follows.unread (Nat.dvd_zero n)]
  have count := follows.count
  obtain ⟨m₁, run, encodes₁, frame⟩ :=
    exec_ring (.firmwareWrite c pruData length) (fun _ => small) nonneg encodes
  have next := onRing_follows (.firmwareWrite c pruData length) follows
  have none : 0 + (q.length + (Op.firmwareWrite c pruData length).writes - n) = 0 := by
    simp only [Op.writes]
    omega
  have queue := offered_fits (.firmwareWrite c pruData length) (n := n) (q := q) (by
    simp only [Op.writes]
    omega)
  rw [none, queue] at next
  replace encodes₁ : Encodes m₁ c (r.putAll (storedBytes pruData length.toNatClampNeg)) := encodes₁
  replace next : (r.putAll (storedBytes pruData length.toNatClampNeg)).Follows
      (q ++ storedBytes pruData length.toNatClampNeg) 0 := next
  obtain ⟨m₂, drained⟩ := drain_run encodes₁ next
  have total : (q ++ storedBytes pruData length.toNatClampNeg).length =
      q.length + length.toNatClampNeg := by
    rw [List.length_append, storedBytes_length]
  have index : (m₁.indexData c).toNat = q.length + length.toNatClampNeg := by
    rw [encodes₁.count, next.count, total]
  have head : m₁.head c = m.head c := by
    rw [← UInt32.toNat_inj, encodes₁.head, encodes.head, Ring.putAll_head]
  have cells := drain_inside_iff encodes₁.head_lt (q.length + length.toNatClampNeg)
    (Nat.le_of_eq index.symm)
  have same : CellsFit m₁ c (m.head c) (q.length + length.toNatClampNeg) ↔
      CellsFit m c (m.head c) ((m.indexData c).toNat + length.toNatClampNeg) := by
    unfold CellsFit
    rw [frame.bufferStart, frame.channelSize, encodes.count, count]
  rw [total] at drained
  rw [head] at cells
  rw [pending]
  exact ⟨_, m₁, m₂, run, drained, cells.trans same⟩

theorem delivered_iff (encodes : Encodes m c r) (follows : r.Follows q 0) (small : n < 2 ^ 31)
    (pruData : Nat → UInt8) {length : Int32} (nonneg : 0 ≤ length)
    (room : length ≤ Firmware.free m c) :
    Delivered m c pruData length ↔
      CellsFit m c (m.head c) ((m.indexData c).toNat + length.toNatClampNeg) ∧
        storedBytes pruData length.toNatClampNeg = payload pruData length.toNatClampNeg := by
  have reaches := firmwareWrite_op_inBounds_iff encodes.tail_lt pruData length
  obtain ⟨out, m₁, m₂, run, drained, inside⟩ :=
    write_drained encodes follows small pruData nonneg room
  constructor
  · rintro ⟨out', n₁, n₂, again, delivered⟩
    obtain ⟨-, again⟩ := execInside_iff.mp again
    rw [run] at again
    cases again
    have fits := inside.mp ⟨_, delivered⟩
    replace delivered := runOps_of_inside delivered
    rw [drained] at delivered
    have bytes := List.map_injective_iff.mpr
      (fun a b (same : (⟨.byte a, []⟩ : Outcome) = ⟨.byte b, []⟩) => by
        cases same; rfl) (congrArg Prod.fst (Except.ok.inj delivered))
    exact ⟨fits, List.append_cancel_left bytes⟩
  · rintro ⟨fits, order⟩
    have behind := (cellsFit_add_iff (tail_behind encodes follows) _).mp fits
    have wrote := execInside_iff.mpr ⟨reaches.mpr behind.2, run⟩
    obtain ⟨⟨outs, m'⟩, done⟩ := inside.mpr fits
    have same := runOps_of_inside done
    rw [drained] at same
    rw [← Except.ok.inj same, order] at done
    exact ⟨out, m₁, m₂, wrote, done⟩

end delivery

/-- In a state reached without a write on a full channel, the payload arrives in memory order
    exactly when the cells of the pending bytes and of the payload are in `ring->data`, the byte
    behind it is its first byte and the rest is a palindrome. -/
theorem payload_delivered_iff (m : Ram) (init : AfterInit m) (c : Channel)
    (pos : 0 < (m.channelSize c).toNat) (small : (m.channelSize c).toNat < 2 ^ 31)
    (ops : List Op) (nonneg : ∀ op ∈ ops, op.Nonneg) (never : NeverFull ops m)
    (outs : List Outcome) (m' : Ram) (run : runInside ops m = some (outs, m'))
    (pruData : Nat → UInt8) (length : Int32) (some : 0 < length)
    (room : length ≤ Firmware.free m' c) :
    Delivered m' c pruData length ↔
      CellsFit m' c (m'.head c) ((m'.indexData c).toNat + length.toNatClampNeg) ∧
        pruData length.toNatClampNeg = pruData 0 ∧
        (payload pruData length.toNatClampNeg).tail.reverse =
          (payload pruData length.toNatClampNeg).tail := by
  have leads := (init.leads rfl pos).run small nonneg (runOps_of_inside run)
  rw [overflow_of_neverFull c never] at leads
  obtain ⟨r, q, encodes, follows⟩ := leads
  have natural : 0 ≤ length := Int32.le_of_lt some
  have positive : 0 < length.toNatClampNeg := by
    have value := MachineWords.toInt_length natural
    have bound := Int32.lt_iff_toInt_lt.mp some
    rw [Int32.toInt_zero] at bound
    omega
  rw [delivered_iff encodes follows small pruData natural room,
    storedBytes_in_order_iff pruData positive]

theorem payload_delivered_constant : Delivered pairsRam 0 (fun _ => 9) 2 := by
  refine (payload_delivered_iff pairsRam pairsRam_left.init 0 (by decide) (by decide) []
    (by decide) trivial [] pairsRam rfl (fun _ => 9) 2 (by decide) (by decide)).mpr ?_
  decide

/-- The payload `1 2` with 3 behind it arrives as `3 2`. -/
theorem payload_reversed : AfterInit pairsRam ∧ (2 : Int32) ≤ Firmware.free pairsRam 0 ∧
    ∃ m₁ m₂ out, (Op.firmwareWrite 0 (fun i => UInt8.ofNat (i + 1)) 2).execInside pairsRam =
        some (out, m₁) ∧
      runInside (drain 0 2) m₁ = some ([⟨.byte 3, []⟩, ⟨.byte 2, []⟩], m₂) ∧
      payload (fun i => UInt8.ofNat (i + 1)) 2 = [1, 2] ∧
      ¬ Delivered pairsRam 0 (fun i => UInt8.ofNat (i + 1)) 2 := by
  refine ⟨pairsRam_left.init, by decide, _, _, _, rfl, rfl, rfl, ?_⟩
  rintro ⟨out, m₁, m₂, write, reads⟩
  cases write
  cases reads

end PruBridge.RoundTrip
