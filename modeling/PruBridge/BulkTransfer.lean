import PruBridge.Operations

/-!
The bulk functions of the firmware against the byte-wise ones of the driver, on one RAM.
The states here need not come from a run: only the bounds that a statement names are used.
-/
namespace PruBridge
open AtomicProgram MachineWords

def Driver.readEach (c : Channel) : (n : Nat) → Code (List UInt8)
  | 0 => pure []
  | n + 1 => do
    let value ← Driver.readBuffer c
    let values ← Driver.readEach c n
    pure (value :: values)

def Driver.writeEach (c : Channel) : List UInt8 → Code Unit
  | [] => pure ()
  | b :: rest => do
    Driver.writeBuffer c b
    Driver.writeEach c rest

def ringByte (m : Ram) (c : Channel) (j : Nat) : UInt8 :=
  m.data (m.bufferStart c + UInt32.ofNat (((m.head c).toNat + j) % (m.channelSize c).toNat))

def soughtBy (m : Ram) (c : Channel) (k : Nat) : Ram :=
  { m with
    head := Function.update m.head c
      (UInt32.ofNat (((m.head c).toNat + k) % (m.channelSize c).toNat)) }

/-- An array with `left` values of `byte` at its offsets from `i` on. -/
def filledWith (byte : Nat → UInt8) (left i : Nat) (data : Nat → UInt8) (j : Nat) : UInt8 :=
  if i ≤ j ∧ j < i + left then byte (j - i) else data j

theorem filledWith_zero (byte : Nat → UInt8) (i : Nat) (data : Nat → UInt8) :
    filledWith byte 0 i data = data := by
  funext j
  unfold filledWith
  rw [if_neg (by omega)]

theorem filledWith_succ {byte byte' : Nat → UInt8} (moved : ∀ k, byte' k = byte (1 + k))
    (left i : Nat) (data : Nat → UInt8) :
    filledWith byte' left (i + 1) (Function.update data i (byte 0)) =
      filledWith byte (left + 1) i data := by
  funext j
  simp only [filledWith, moved]
  by_cases here : j = i
  · subst here
    rw [if_neg (by omega), if_pos (by omega), Function.update_self, Nat.sub_self]
  · rw [Function.update_of_ne here]
    by_cases inside : i ≤ j ∧ j < i + (left + 1)
    · have place : 1 + (j - (i + 1)) = j - i := by omega
      rw [if_pos (by omega), if_pos inside, place]
    · rw [if_neg (by omega), if_neg inside]

section reads
variable {m : Ram} {c : Channel}

theorem toNat_ofNat_mod (k : Nat) {n : UInt32} (pos : 0 < n.toNat) :
    (UInt32.ofNat (k % n.toNat)).toNat = k % n.toNat := by
  have less := Nat.mod_lt k pos
  have bound := n.toNat_lt
  exact UInt32.toNat_ofNat_of_lt' (by change _ < 2 ^ 32; omega)

theorem soughtBy_zero (head : m.head c < m.channelSize c) : soughtBy m c 0 = m := by
  have less := UInt32.lt_iff_toNat_lt.mp head
  have same : UInt32.ofNat (((m.head c).toNat + 0) % (m.channelSize c).toNat) = m.head c := by
    rw [Nat.add_zero, Nat.mod_eq_of_lt less, UInt32.ofNat_toNat]
  unfold soughtBy
  rw [same, Function.update_eq_self]

theorem sought_eq (head : m.head c < m.channelSize c) : sought m c = soughtBy m c 1 := by
  have next := toNat_next head
  have same : (m.head c + 1) % m.channelSize c =
      UInt32.ofNat (((m.head c).toNat + 1) % (m.channelSize c).toNat) :=
    (ofNat_word next).symm
  unfold sought soughtBy
  rw [same]

theorem soughtBy_head (k : Nat) : (soughtBy m c k).head c =
    UInt32.ofNat (((m.head c).toNat + k) % (m.channelSize c).toNat) :=
  Function.update_self c _ _

theorem soughtBy_soughtBy (pos : 0 < (m.channelSize c).toNat) (j k : Nat) :
    soughtBy (soughtBy m c j) c k = soughtBy m c (j + k) := by
  have value := toNat_ofNat_mod ((m.head c).toNat + j) pos
  rw [soughtBy, soughtBy_head, soughtBy, soughtBy]
  simp only [value, Nat.mod_add_mod, Nat.add_assoc, Function.update_idem]

theorem ringByte_soughtBy (pos : 0 < (m.channelSize c).toNat) (j k : Nat) :
    ringByte (soughtBy m c j) c k = ringByte m c (j + k) := by
  have value := toNat_ofNat_mod ((m.head c).toNat + j) pos
  rw [ringByte, soughtBy_head, ringByte]
  simp only [soughtBy, value, Nat.mod_add_mod, Nat.add_assoc]

theorem soughtBy_lt (pos : 0 < (m.channelSize c).toNat) (k : Nat) :
    (soughtBy m c k).head c < (soughtBy m c k).channelSize c := by
  rw [soughtBy_head, UInt32.lt_iff_toNat_lt, toNat_ofNat_mod _ pos]
  exact Nat.mod_lt _ pos

theorem ringByte_zero (head : m.head c < m.channelSize c) :
    m.data (m.bufferStart c + m.head c) = ringByte m c 0 := by
  have less := UInt32.lt_iff_toNat_lt.mp head
  unfold ringByte
  rw [Nat.add_zero, Nat.mod_eq_of_lt less, UInt32.ofNat_toNat]

/-- The RAM after `k` driver reads that find data. -/
def drained (m : Ram) (c : Channel) (k : Nat) : Ram :=
  recounted (soughtBy m c k) c (m.indexData c - UInt32.ofNat k)

theorem consumed_eq (head : m.head c < m.channelSize c) :
    Driver.consumed m c = drained m c 1 := by
  unfold drained
  rw [← sought_eq head]
  rfl

theorem drained_drained (pos : 0 < (m.channelSize c).toNat) (j k : Nat) :
    drained (drained m c j) c k = drained m c (j + k) := by
  have moved : soughtBy (drained m c j) c k =
      recounted (soughtBy (soughtBy m c j) c k) c (m.indexData c - UInt32.ofNat j) := rfl
  have count : (drained m c j).indexData c = m.indexData c - UInt32.ofNat j :=
    recounted_indexData _
  have sum : m.indexData c - UInt32.ofNat j - UInt32.ofNat k =
      m.indexData c - UInt32.ofNat (j + k) := by
    rw [UInt32.ofNat_add]
    simp only [UInt32.sub_eq_add_neg, UInt32.neg_add, UInt32.add_assoc]
  rw [drained, moved, count, sum, soughtBy_soughtBy pos, drained]
  simp only [recounted, Function.update_idem]

theorem drained_zero (head : m.head c < m.channelSize c) : drained m c 0 = m := by
  unfold drained
  rw [soughtBy_zero head]
  simp [recounted]

theorem readEach_run (head : m.head c < m.channelSize c) (k : Nat)
    (enough : k ≤ (m.indexData c).toNat) :
    (Driver.readEach c k).run m = .ok ((List.range k).map (ringByte m c), drained m c k) := by
  have pos := toNat_pos_of_lt head
  induction k generalizing m with
  | zero =>
    rw [drained_zero head]
    rfl
  | succ k ih =>
    have some : m.indexData c ≠ 0 := by
      intro none
      rw [none, UInt32.toNat_zero] at enough
      omega
    have first := Driver.readBuffer_run m c (ne_zero_of_lt head) some
    rw [consumed_eq head, ringByte_zero head] at first
    have count : (drained m c 1).indexData c = m.indexData c - 1 := recounted_indexData _
    have left := toNat_sub_one some
    have later := ih (m := drained m c 1) (soughtBy_lt pos 1) (by rw [count]; omega) pos
    have bytes : (List.range (k + 1)).map (ringByte m c) =
        ringByte m c 0 :: (List.range k).map (ringByte (drained m c 1) c) := by
      rw [List.range_succ_eq_map, List.map_cons, List.map_map]
      congr 1
      apply List.map_congr_left
      intro j _
      have here := ringByte_soughtBy pos 1 j
      rw [Nat.add_comm] at here
      exact here.symm
    rw [Driver.readEach, Prog.run_bind_ok first, Prog.run_bind_ok later, bytes,
      drained_drained pos, Nat.add_comm 1 k]
    rfl

def filled (m : Ram) (c : Channel) (left i : Nat) (j : Nat) : UInt8 :=
  if i ≤ j ∧ j < i + left then ringByte m c (j - i) else m.pruData j

theorem filled_succ (pos : 0 < (m.channelSize c).toNat) (left i : Nat) :
    filled { soughtBy m c 1 with
      pruData := Function.update m.pruData i (ringByte m c 0) } c left (i + 1) =
        filled m c (left + 1) i :=
  filledWith_succ (ringByte_soughtBy pos 1) left i m.pruData

theorem readLoop_run (head : m.head c < m.channelSize c) (left i : Nat) :
    (Firmware.readLoop c left i).run m =
      .ok ((), { soughtBy m c left with pruData := filled m c left i }) := by
  have pos := toNat_pos_of_lt head
  have nonzero := ne_zero_of_lt head
  induction left generalizing m i with
  | zero =>
    have same : filled m c 0 i = m.pruData := filledWith_zero (ringByte m c) i m.pruData
    rw [soughtBy_zero head, same]
    rfl
  | succ left ih =>
    let next : Ram := { soughtBy m c 1 with
      pruData := Function.update m.pruData i (ringByte m c 0) }
    have later := ih (m := next) (soughtBy_lt pos 1) (i + 1) pos nonzero
    have final : ({ soughtBy next c left with pruData := filled next c left (i + 1) } : Ram) =
        { soughtBy m c (left + 1) with pruData := filled m c (left + 1) i } := by
      have moved := soughtBy_soughtBy pos 1 left
      rw [filled_succ pos, Nat.add_comm left 1, ← moved]
      rfl
    rw [← final, ← later]
    simp [Firmware.readLoop, headCell, advanceHead, umod_pos _ nonzero, next, ringByte_zero head,
      ← sought_eq head, sought]

theorem firmwareRead_drained (head : m.head c < m.channelSize c)
    (small : (m.indexData c).toNat < 2 ^ 31) {length : Int32} (nonneg : 0 ≤ length)
    (enough : length.toNatClampNeg ≤ (m.indexData c).toNat) :
    (Firmware.readBuffer c length).run m =
      .ok (0, { drained m c length.toNatClampNeg with
        pruData := filled m c length.toNatClampNeg 0 }) := by
  have word : UInt32.ofNat length.toNatClampNeg = length.toUInt32 :=
    ofNat_word (toNat_length nonneg)
  rw [firmwareRead_accepted small nonneg enough (readLoop_run head length.toNatClampNeg 0),
    drained, word]
  rfl

end reads

theorem small_index {m : Ram} {c : Channel} (index : m.indexData c ≤ m.channelSize c)
    (fits : (m.bufferStart c).toNat + (m.channelSize c).toNat ≤ totalBufferSize) :
    (m.indexData c).toNat < 2 ^ 31 := by
  have le := UInt32.le_iff_toNat_le.mp index
  simp only [totalBufferSize] at fits
  omega

/-- A bulk read of no more than `index_data` bytes is that many reads of the driver: the same
    bytes, in `pru_data[0]` and on, and the same shared words and ring bytes. A longer one
    changes nothing. -/
theorem bulk_read_eq_bytewise (m : Ram) (c : Channel)
    (head : m.head c < m.channelSize c) (index : m.indexData c ≤ m.channelSize c)
    (fits : (m.bufferStart c).toNat + (m.channelSize c).toNat ≤ totalBufferSize)
    (length : Int32) (nonneg : 0 ≤ length) :
    (length.toNatClampNeg ≤ (m.indexData c).toNat → ∃ values m₁ m₂,
      (Firmware.readBuffer c length).run m = .ok (0, m₁) ∧
      (Driver.readEach c length.toNatClampNeg).run m = .ok (values, m₂) ∧
      (List.range length.toNatClampNeg).map m₁.pruData = values ∧
      (∀ j, length.toNatClampNeg ≤ j → m₁.pruData j = m.pruData j) ∧
      { m₁ with pruData := m.pruData } = m₂) ∧
    ((m.indexData c).toNat < length.toNatClampNeg →
      (Firmware.readBuffer c length).run m = .ok (-1, m)) := by
  have small := small_index index fits
  constructor
  · intro enough
    refine ⟨_, _, _, firmwareRead_drained head small nonneg enough, readEach_run head _ enough,
      ?_, ?_, rfl⟩
    · apply List.map_congr_left
      intro j mem
      have before := List.mem_range.mp mem
      simp only [filled]
      rw [if_pos (by omega), Nat.sub_zero]
    · intro j after
      simp only [filled]
      rw [if_neg (by omega)]
  · intro short
    exact firmwareRead_refused small nonneg short

/-- A ring of three cells, two of them unread: the last one and the first one. -/
def acrossEnd : Ram where
  initCheck := 1
  channelSize := fun _ => 3
  indexData := fun _ => 2
  bufferStart := fun c => UInt32.ofNat (3 * c)
  head := fun _ => 2
  tail := fun _ => 1
  data := fun k => UInt8.ofNat k.toNat
  pruData := fun j => UInt8.ofNat (100 + j)

theorem bulk_read_across_end : ∃ values m₁ m₂,
    (Firmware.readBuffer 1 2).run acrossEnd = .ok (0, m₁) ∧
    (Driver.readEach 1 2).run acrossEnd = .ok (values, m₂) ∧
    (List.range 2).map m₁.pruData = values ∧
    (∀ j, 2 ≤ j → m₁.pruData j = acrossEnd.pruData j) ∧
    { m₁ with pruData := acrossEnd.pruData } = m₂ :=
  (bulk_read_eq_bytewise acrossEnd 1 (by decide) (by decide) (by decide) 2 (by decide)).1
    (by decide)

def pushedAll (m : Ram) (c : Channel) (bs : List UInt8) : Ram :=
  bs.foldl (fun m b => pushed m c b) m

def dataStored : Access Cell Cell.Val → Option (UInt32 × UInt8)
  | .store (.data k) b => some (k, b)
  | _ => none

def dataStores {α : Type} (p : Code α) (m : Ram) : List (UInt32 × UInt8) :=
  (p.trace m).filterMap dataStored

def bytesStored {α : Type} (p : Code α) (m : Ram) : List UInt8 := (dataStores p m).map Prod.snd

/-- Each byte with the cell behind the tail that gets it. -/
def placed (m : Ram) (c : Channel) : List UInt8 → List (UInt32 × UInt8)
  | [] => []
  | b :: rest => (m.bufferStart c + m.tail c, b) :: placed (pushed m c b) c rest

section writes
variable {m : Ram} {c : Channel}

theorem dataStores_bind {α β : Type} {p : Code α} {f : α → Code β} {m' : Ram} {a : α}
    (first : p.run m = .ok (a, m')) :
    dataStores (p >>= f) m = dataStores p m ++ dataStores (f a) m' := by
  rw [dataStores, Prog.trace_bind_ok first, List.filterMap_append]
  rfl

theorem placed_recounted (index : UInt32) (bs : List UInt8) :
    placed (recounted m c index) c bs = placed m c bs := by
  induction bs generalizing m with
  | nil => rfl
  | cons b rest ih =>
    exact congrArg ((m.bufferStart c + m.tail c, b) :: ·) (ih (m := pushed m c b))

theorem placed_bytes (bs : List UInt8) : (placed m c bs).map Prod.snd = bs := by
  induction bs generalizing m with
  | nil => rfl
  | cons b rest ih => exact congrArg (b :: ·) ih

theorem pushedAll_recounted (index : UInt32) (bs : List UInt8) :
    pushedAll (recounted m c index) c bs = recounted (pushedAll m c bs) c index := by
  induction bs generalizing m with
  | nil => rfl
  | cons b rest ih => exact ih (m := pushed m c b)

theorem pushedAll_eq (tail : m.tail c < m.channelSize c) (bs : List UInt8) :
    ∃ data, pushedAll m c bs = { m with
      data := data
      tail := Function.update m.tail c
        (UInt32.ofNat (((m.tail c).toNat + bs.length) % (m.channelSize c).toNat)) } := by
  have pos := toNat_pos_of_lt tail
  induction bs generalizing m with
  | nil =>
    have less := UInt32.lt_iff_toNat_lt.mp tail
    have same : UInt32.ofNat (((m.tail c).toNat + 0) % (m.channelSize c).toNat) = m.tail c := by
      rw [Nat.add_zero, Nat.mod_eq_of_lt less, UInt32.ofNat_toNat]
    refine ⟨m.data, ?_⟩
    rw [List.length_nil, same, Function.update_eq_self]
    rfl
  | cons b rest ih =>
    have next := toNat_next tail
    have inside : (pushed m c b).tail c < (pushed m c b).channelSize c := by
      rw [pushed_tail, UInt32.lt_iff_toNat_lt, next]
      exact Nat.mod_lt _ pos
    obtain ⟨data, later⟩ := ih inside pos
    refine ⟨data, ?_⟩
    change pushedAll (pushed m c b) c rest = _
    rw [later, pushed_tail, next]
    simp only [pushed, Function.update_idem, List.length_cons, Nat.mod_add_mod, Nat.add_assoc,
      Nat.add_comm 1]

theorem writeLoop_pushes (nonzero : m.channelSize c ≠ 0) (i : Nat) :
    (Firmware.writeLoop c i).run m = .ok ((), pushedAll m c (storedBytes m.pruData i)) := by
  induction i generalizing m with
  | zero => rfl
  | succ i ih =>
    have later := ih (m := pushed m c (m.pruData (i + 1))) nonzero
    simpa [Firmware.writeLoop, tailCell, advanceTail, umod_pos _ nonzero, pushed, storedBytes,
      pushedAll] using later

theorem pushedAll_words (bs : List UInt8) :
    (pushedAll m c bs).indexData = m.indexData ∧
      (pushedAll m c bs).channelSize = m.channelSize ∧ (pushedAll m c bs).head = m.head := by
  induction bs generalizing m with
  | nil => exact ⟨rfl, rfl, rfl⟩
  | cons b rest ih => exact ih (m := pushed m c b)

theorem firmwareWrite_run {length : Int32}
    (sized : m.channelSize c ≠ 0 ∨ length.toNatClampNeg = 0) :
    (Firmware.writeBuffer c length).run m =
      .ok (0, recounted (pushedAll m c (storedBytes m.pruData length.toNatClampNeg)) c
        (countedUp m c length)) := by
  let bytes := storedBytes m.pruData length.toNatClampNeg
  have loop : (Firmware.writeLoop c length.toNatClampNeg).run m =
      .ok ((), pushedAll m c bytes) := by
    rcases sized with nonzero | none
    · exact writeLoop_pushes nonzero length.toNatClampNeg
    · simp only [bytes, none]
      rfl
  obtain ⟨index, size, -⟩ := @pushedAll_words m c bytes
  have same : countedUp (pushedAll m c bytes) c length = countedUp m c length := by
    unfold countedUp
    rw [index, size]
  rw [Firmware.writeBuffer, Prog.run_bind_ok loop, Prog.run_bind_ok (countUp_counts length), same]
  rfl

theorem writeLoop_trace (nonzero : m.channelSize c ≠ 0) (i : Nat) :
    (Firmware.writeLoop c (i + 1)).trace m =
      [.load (.bufferStart c), .load (.tail c), .load (.pruData (i + 1)),
        .store (.data (m.bufferStart c + m.tail c)) (m.pruData (i + 1)), .load (.tail c),
        .load (.channelSize c), .store (.tail c) ((m.tail c + 1) % m.channelSize c)] ++
      (Firmware.writeLoop c i).trace (pushed m c (m.pruData (i + 1))) := by
  simp [Firmware.writeLoop, tailCell, advanceTail, umod_pos _ nonzero, pushed]

theorem writeLoop_stores (nonzero : m.channelSize c ≠ 0) (i : Nat) :
    dataStores (Firmware.writeLoop c i) m = placed m c (storedBytes m.pruData i) := by
  induction i generalizing m with
  | zero => rfl
  | succ i ih =>
    have later := ih (m := pushed m c (m.pruData (i + 1))) nonzero
    unfold dataStores
    rw [writeLoop_trace nonzero, List.filterMap_append]
    exact congrArg ((m.bufferStart c + m.tail c, m.pruData (i + 1)) :: ·) later

theorem driverWrite_stores (nonzero : m.channelSize c ≠ 0) (b : UInt8) :
    dataStores (Driver.writeBuffer c b) m = [(m.bufferStart c + m.tail c, b)] := by
  by_cases room : m.indexData c < m.channelSize c
  · simp [dataStores, Driver.writeBuffer, Driver.countUp, Driver.printkRing, tailCell, advanceTail,
      umod_pos _ nonzero, room]
    rfl
  · simp [dataStores, Driver.writeBuffer, Driver.countUp, Driver.printkRing, tailCell, advanceTail,
      umod_pos _ nonzero, room]
    rfl

theorem saturated_next (b : UInt8) (rest : List UInt8) :
    saturated (recounted (pushed m c b) c (saturated m c 1)) c rest.length =
      saturated m c (b :: rest).length := by
  have count : ((recounted (pushed m c b) c (saturated m c 1)).indexData c).toNat =
      min ((m.indexData c).toNat + 1) (m.channelSize c).toNat := by
    rw [recounted_indexData, toNat_saturated]
  rw [← UInt32.toNat_inj, toNat_saturated, toNat_saturated, count, List.length_cons]
  change min _ (m.channelSize c).toNat = _
  omega

theorem written_count (room : (m.indexData c).toNat < (m.channelSize c).toNat) (b : UInt8) :
    ((Driver.written m c b).indexData c).toNat = (m.indexData c).toNat + 1 := by
  have less : m.indexData c < m.channelSize c := UInt32.lt_iff_toNat_lt.mpr room
  rw [Driver.written_indexData less, toNat_add_one less]

theorem written_index_le (index : m.indexData c ≤ m.channelSize c) (b : UInt8) :
    (Driver.written m c b).indexData c ≤ m.channelSize c := by
  rw [written_eq index, recounted_indexData, UInt32.le_iff_toNat_le, toNat_saturated]
  exact Nat.min_le_right _ _

theorem consumed_index_le (index : m.indexData c ≤ m.channelSize c) (some : m.indexData c ≠ 0) :
    (Driver.consumed m c).indexData c ≤ m.channelSize c := by
  have le := UInt32.le_iff_toNat_le.mp index
  have fewer := toNat_sub_one some
  rw [Driver.consumed_indexData, UInt32.le_iff_toNat_le, fewer]
  exact Nat.le_trans (Nat.sub_le _ _) le

theorem writeEach_run (nonzero : m.channelSize c ≠ 0) (index : m.indexData c ≤ m.channelSize c)
    (bs : List UInt8) :
    (Driver.writeEach c bs).run m =
      .ok ((), recounted (pushedAll m c bs) c (saturated m c bs.length)) ∧
    dataStores (Driver.writeEach c bs) m = placed m c bs := by
  induction bs generalizing m with
  | nil =>
    have le := UInt32.le_iff_toNat_le.mp index
    have same : saturated m c 0 = m.indexData c := by
      rw [← UInt32.toNat_inj, toNat_saturated]
      omega
    rw [List.length_nil, same]
    exact ⟨by simp [Driver.writeEach, recounted, pushedAll], rfl⟩
  | cons b rest ih =>
    have first := Driver.writeBuffer_run m c b nonzero
    have inside := written_index_le index b
    rw [written_eq index] at first inside
    let next := recounted (pushed m c b) c (saturated m c 1)
    obtain ⟨run, stores⟩ := ih (m := next) nonzero inside
    rw [saturated_next, pushedAll_recounted] at run
    rw [placed_recounted] at stores
    constructor
    · unfold Driver.writeEach
      rw [Prog.run_bind_ok first, run]
      simp only [recounted, Function.update_idem]
      rfl
    · unfold Driver.writeEach
      rw [dataStores_bind first, stores, driverWrite_stores nonzero]
      rfl

theorem countUp_stores (length : Int32) : dataStores (Firmware.countUp c length) m = [] := by
  by_cases room : m.indexData c + length.toUInt32 < m.channelSize c
  · simp [dataStores, Firmware.countUp, room, dataStored]
  · simp [dataStores, Firmware.countUp, room, dataStored]

theorem firmwareWrite_stores (nonzero : m.channelSize c ≠ 0) (length : Int32) :
    dataStores (Firmware.writeBuffer c length) m =
      placed m c (storedBytes m.pruData length.toNatClampNeg) := by
  have loop := writeLoop_pushes nonzero length.toNatClampNeg
  rw [Firmware.writeBuffer, dataStores_bind loop, dataStores_bind (countUp_counts length),
    countUp_stores, writeLoop_stores nonzero]
  exact List.append_nil _

end writes

/-- A bulk write of any length makes the stores to ring cells that one driver write for each
    byte makes, in the order of the firmware's loop, and leaves the same RAM. The counter goes
    up to the size at most. -/
theorem bulk_write_eq_bytewise (m : Ram) (c : Channel) (tail : m.tail c < m.channelSize c)
    (index : m.indexData c ≤ m.channelSize c)
    (fits : (m.bufferStart c).toNat + (m.channelSize c).toNat ≤ totalBufferSize)
    (length : Int32) (nonneg : 0 ≤ length) :
    ∃ bytes m', bytesStored (Firmware.writeBuffer c length) m = bytes ∧
      bytes.length = length.toNatClampNeg ∧
      (Firmware.writeBuffer c length).run m = .ok (0, m') ∧
      (Driver.writeEach c bytes).run m = .ok ((), m') ∧
      dataStores (Driver.writeEach c bytes) m = dataStores (Firmware.writeBuffer c length) m ∧
      (m'.tail c).toNat =
        ((m.tail c).toNat + length.toNatClampNeg) % (m.channelSize c).toNat ∧
      (m'.indexData c).toNat =
        min ((m.indexData c).toNat + length.toNatClampNeg) (m.channelSize c).toNat ∧
      m'.head = m.head ∧ Untouched c m m' := by
  have small := small_index index fits
  have nonzero := ne_zero_of_lt tail
  let bytes := storedBytes m.pruData length.toNatClampNeg
  have loop := writeLoop_pushes nonzero length.toNatClampNeg
  obtain ⟨bytewise, stores⟩ := writeEach_run nonzero index bytes
  obtain ⟨data, pushes⟩ := pushedAll_eq tail bytes
  rw [storedBytes_length] at bytewise pushes
  rw [pushes] at loop bytewise
  let after : Ram := { m with
    data := data
    tail := Function.update m.tail c
      (UInt32.ofNat (((m.tail c).toNat + length.toNatClampNeg) % (m.channelSize c).toNat)) }
  have count : (Firmware.countUp c length).run after =
      .ok ((), recounted after c (saturated m c length.toNatClampNeg)) :=
    countUp_run (m := after) small nonneg
  have run : (Firmware.writeBuffer c length).run m =
      .ok (0, recounted after c (saturated m c length.toNatClampNeg)) := by
    unfold Firmware.writeBuffer
    rw [Prog.run_bind_ok loop, Prog.run_bind_ok count]
    rfl
  have bulk : dataStores (Firmware.writeBuffer c length) m = placed m c bytes :=
    firmwareWrite_stores nonzero length
  refine ⟨bytes, _, ?_, storedBytes_length _ _, run, bytewise, stores.trans bulk.symm,
    ?_, ?_, rfl, ?_⟩
  · unfold bytesStored
    rw [bulk]
    exact placed_bytes bytes
  · rw [← toNat_ofNat_mod _ (toNat_pos nonzero)]
    exact congrArg UInt32.toNat (Function.update_self c _ _)
  · rw [recounted_indexData, toNat_saturated]
  · exact ⟨rfl, rfl, rfl, fun _ other => Function.update_of_ne other _ _, fun _ _ => rfl,
      fun _ other => Function.update_of_ne other _ _⟩

/-- Seven bytes into a ring of three lap it twice. -/
theorem bulk_write_laps_twice : ∃ bytes m',
    bytesStored (Firmware.writeBuffer 1 7) acrossEnd = bytes ∧ bytes.length = 7 ∧
    (Firmware.writeBuffer 1 7).run acrossEnd = .ok (0, m') ∧
    (Driver.writeEach 1 bytes).run acrossEnd = .ok ((), m') ∧
    dataStores (Driver.writeEach 1 bytes) acrossEnd =
      dataStores (Firmware.writeBuffer 1 7) acrossEnd ∧
    (m'.tail 1).toNat = (1 + 7) % 3 ∧ (m'.indexData 1).toNat = min (2 + 7) 3 ∧
    m'.head = acrossEnd.head ∧ Untouched 1 acrossEnd m' :=
  bulk_write_eq_bytewise acrossEnd 1 (by decide) (by decide) (by decide) 7 (by decide)

end PruBridge
