import PruBridge.CircularBuffer
import PruBridge.Driver
import PruBridge.Firmware
import PruBridge.Initialisation
import PruBridge.MachineWords

/-!
The four ring operations of the code, against the rings of `CircularBuffer`. `Encodes`
reads one channel of the shared RAM as a ring, `Frame` says what an operation on a
channel leaves alone, and a `Layout` keeps the regions of two channels apart.
-/
namespace PruBridge
open AtomicProgram CircularBuffer MachineWords

structure Encodes (m : Ram) (c : Channel) {n : Nat} (r : Ring UInt8 n) : Prop where
  size : (m.channelSize c).toNat = n
  head : (m.head c).toNat = r.head
  tail : (m.tail c).toNat = r.tail
  count : (m.indexData c).toNat = r.count
  cells : ∀ i : Fin n, m.data (m.bufferStart c + UInt32.ofNat i) = r.cells i

def InRegion (m : Ram) (c : Channel) (k : UInt32) : Prop :=
  ∃ i, i < (m.channelSize c).toNat ∧ k = m.bufferStart c + UInt32.ofNat i

structure Frame (c : Channel) (m m' : Ram) : Prop where
  initCheck : m'.initCheck = m.initCheck
  channelSize : m'.channelSize = m.channelSize
  bufferStart : m'.bufferStart = m.bufferStart
  indexData : ∀ d, d ≠ c → m'.indexData d = m.indexData d
  head : ∀ d, d ≠ c → m'.head d = m.head d
  tail : ∀ d, d ≠ c → m'.tail d = m.tail d
  data : ∀ k, ¬ InRegion m c k → m'.data k = m.data k

theorem Frame.refl (c : Channel) (m : Ram) : Frame c m m :=
  ⟨rfl, rfl, rfl, fun _ _ => rfl, fun _ _ => rfl, fun _ _ => rfl, fun _ _ => rfl⟩

theorem Frame.region {c d : Channel} {m m' : Ram} (f : Frame c m m') (k : UInt32) :
    InRegion m' d k ↔ InRegion m d k := by
  simp only [InRegion, f.channelSize, f.bufferStart]

theorem Frame.trans {c : Channel} {m m' m'' : Ram} (f : Frame c m m') (g : Frame c m' m'') :
    Frame c m m'' where
  initCheck := g.initCheck.trans f.initCheck
  channelSize := g.channelSize.trans f.channelSize
  bufferStart := g.bufferStart.trans f.bufferStart
  indexData d other := (g.indexData d other).trans (f.indexData d other)
  head d other := (g.head d other).trans (f.head d other)
  tail d other := (g.tail d other).trans (f.tail d other)
  data k outside :=
    (g.data k (fun inside => outside ((f.region k).mp inside))).trans (f.data k outside)

theorem ofNat_word {w : UInt32} {k : Nat} (value : w.toNat = k) : UInt32.ofNat k = w := by
  rw [← value, UInt32.ofNat_toNat]

def address {n : Nat} (start : UInt32) (i : Fin n) : UInt32 := start + UInt32.ofNat i

theorem address_injective {n : Nat} {start : UInt32} (word : n < 2 ^ 32) {i j : Fin n}
    (same : address start i = address start j) : i = j :=
  Fin.ext (add_ofNat_injective (by omega) (by omega) same)

section channel
variable {m : Ram} {c : Channel} {n : Nat} {r : Ring UInt8 n}

theorem Encodes.pos (h : Encodes m c r) : m.channelSize c ≠ 0 := by
  intro zero
  have positive := r.head.pos
  have size := h.size
  rw [zero, UInt32.toNat_zero] at size
  omega

theorem Encodes.tail_lt (h : Encodes m c r) : m.tail c < m.channelSize c := by
  rw [UInt32.lt_iff_toNat_lt, h.tail, h.size]
  exact r.tail.isLt

theorem Encodes.head_lt (h : Encodes m c r) : m.head c < m.channelSize c := by
  rw [UInt32.lt_iff_toNat_lt, h.head, h.size]
  exact r.head.isLt

theorem Encodes.size_lt (h : Encodes m c r) : n < 2 ^ 32 := by
  rw [← h.size]
  exact UInt32.toNat_lt _

theorem Encodes.count_le (h : Encodes m c r) :
    (m.indexData c).toNat ≤ (m.channelSize c).toNat := by
  rw [h.count, h.size]
  exact r.count_le

theorem Encodes.next_tail (h : Encodes m c r) :
    ((m.tail c + 1) % m.channelSize c).toNat = around r.tail 1 := by
  rw [toNat_next h.tail_lt, h.tail, h.size]
  rfl

theorem Encodes.next_head (h : Encodes m c r) :
    ((m.head c + 1) % m.channelSize c).toNat = around r.head 1 := by
  rw [toNat_next h.head_lt, h.head, h.size]
  rfl

theorem Encodes.head_cell (h : Encodes m c r) :
    m.data (m.bufferStart c + m.head c) = r.cells r.head := by
  rw [← h.cells r.head, ofNat_word h.head]

theorem Encodes.free (h : Encodes m c r) (small : n < 2 ^ 31) :
    (Firmware.free m c).toInt = n - r.count := by
  have le := h.count_le
  have fits := r.count_le
  have value : (m.channelSize c - m.indexData c).toNat = n - r.count := by
    rw [UInt32.toNat_sub_of_le _ _ (UInt32.le_iff_toNat_le.mpr le), h.size, h.count]
  change (m.channelSize c - m.indexData c).toBitVec.toInt = _
  have nat : (m.channelSize c - m.indexData c).toBitVec.toNat = n - r.count := value
  rw [BitVec.toInt_eq_toNat_of_lt (by omega), nat]
  omega

theorem Encodes.room (h : Encodes m c r) (small : n < 2 ^ 31) {length : Int32}
    (nonneg : 0 ≤ length) (room : length ≤ Firmware.free m c) :
    r.count + length.toNatClampNeg ≤ n := by
  have free := h.free small
  have value := toInt_length nonneg
  have le := Int32.le_iff_toInt_le.mp room
  omega

def pushed (m : Ram) (c : Channel) (b : UInt8) : Ram :=
  { m with
    data := Function.update m.data (m.bufferStart c + m.tail c) b
    tail := Function.update m.tail c ((m.tail c + 1) % m.channelSize c) }

def recounted (m : Ram) (c : Channel) (index : UInt32) : Ram :=
  { m with indexData := Function.update m.indexData c index }

def sought (m : Ram) (c : Channel) : Ram :=
  { m with head := Function.update m.head c ((m.head c + 1) % m.channelSize c) }

theorem pushed_tail (b : UInt8) :
    (pushed m c b).tail c = (m.tail c + 1) % m.channelSize c :=
  Function.update_self c _ _

theorem recounted_indexData (index : UInt32) : (recounted m c index).indexData c = index :=
  Function.update_self c _ _

theorem sought_head : (sought m c).head c = (m.head c + 1) % m.channelSize c :=
  Function.update_self c _ _

/-- The counter after `n` more bytes, as far as the size. -/
def saturated (m : Ram) (c : Channel) (n : Nat) : UInt32 :=
  UInt32.ofNat (min ((m.indexData c).toNat + n) (m.channelSize c).toNat)

theorem toNat_saturated (n : Nat) :
    (saturated m c n).toNat = min ((m.indexData c).toNat + n) (m.channelSize c).toNat := by
  have bound := (m.channelSize c).toNat_lt
  exact UInt32.toNat_ofNat_of_lt' (by change _ < 2 ^ 32; omega)

theorem written_eq (index : m.indexData c ≤ m.channelSize c) (b : UInt8) :
    Driver.written m c b = recounted (pushed m c b) c (saturated m c 1) := by
  have le := UInt32.le_iff_toNat_le.mp index
  have value := toNat_saturated (m := m) (c := c) 1
  by_cases room : m.indexData c < m.channelSize c
  · have less := UInt32.lt_iff_toNat_lt.mp room
    have count : saturated m c 1 = m.indexData c + 1 := by
      rw [← UInt32.toNat_inj, value, toNat_add_one room]
      omega
    simp [Driver.written, room, recounted, pushed, count]
  · have full : ¬ (m.indexData c).toNat < (m.channelSize c).toNat :=
      fun less => room (UInt32.lt_iff_toNat_lt.mpr less)
    have count : saturated m c 1 = m.indexData c := by
      rw [← UInt32.toNat_inj, value]
      omega
    simp [Driver.written, room, recounted, pushed, count]

def countedUp (m : Ram) (c : Channel) (length : Int32) : UInt32 :=
  if m.indexData c + length.toUInt32 < m.channelSize c then
    m.indexData c + length.toUInt32 else m.channelSize c

theorem countUp_counts (length : Int32) : (Firmware.countUp c length).run m =
    .ok ((), recounted m c (countedUp m c length)) := by
  by_cases room : m.indexData c + length.toUInt32 < m.channelSize c
  · simp [Firmware.countUp, countedUp, recounted, room]
  · simp [Firmware.countUp, countedUp, recounted, room]

theorem countedUp_eq (small : (m.indexData c).toNat < 2 ^ 31) {length : Int32}
    (nonneg : 0 ≤ length) : countedUp m c length = saturated m c length.toNatClampNeg := by
  have sum := toNat_add_length nonneg small
  have value := toNat_saturated (m := m) (c := c) length.toNatClampNeg
  rw [← UInt32.toNat_inj, value, countedUp]
  split
  · rename_i room
    have less := UInt32.lt_iff_toNat_lt.mp room
    omega
  · rename_i full
    have least : ¬ (m.indexData c + length.toUInt32).toNat < (m.channelSize c).toNat :=
      fun less => full (UInt32.lt_iff_toNat_lt.mpr less)
    omega

theorem countUp_run (small : (m.indexData c).toNat < 2 ^ 31) {length : Int32}
    (nonneg : 0 ≤ length) : (Firmware.countUp c length).run m =
      .ok ((), recounted m c (saturated m c length.toNatClampNeg)) := by
  rw [countUp_counts, countedUp_eq small nonneg]

theorem firmwareRead_refused (small : (m.indexData c).toNat < 2 ^ 31) {length : Int32}
    (nonneg : 0 ≤ length) (short : (m.indexData c).toNat < length.toNatClampNeg) :
    (Firmware.readBuffer c length).run m = .ok (-1, m) := by
  have guard : ¬ (m.indexData c).toInt32 - length ≥ 0 := by
    rw [guard_iff nonneg small]
    omega
  simp [Firmware.readBuffer, guard]

theorem firmwareRead_guarded {length : Int32} (guard : (m.indexData c).toInt32 - length ≥ 0)
    {m' : Ram} (loop : (Firmware.readLoop c length.toNatClampNeg 0).run m = .ok ((), m')) :
    (Firmware.readBuffer c length).run m =
      .ok (0, recounted m' c (m'.indexData c - length.toUInt32)) := by
  have body : (Firmware.readBuffer c length).run m = ((Firmware.readLoop c length.toNatClampNeg 0
      >>= fun _ => (do
        let index ← load (.indexData c)
        store (.indexData c) (index - length.toUInt32)
        pure 0 : Code Int32))).run m := by
    simp [Firmware.readBuffer, guard]
  rw [body, Prog.run_bind_ok loop]
  rfl

theorem firmwareRead_accepted (small : (m.indexData c).toNat < 2 ^ 31) {length : Int32}
    (nonneg : 0 ≤ length) (enough : length.toNatClampNeg ≤ (m.indexData c).toNat) {m' : Ram}
    (loop : (Firmware.readLoop c length.toNatClampNeg 0).run m = .ok ((), m')) :
    (Firmware.readBuffer c length).run m =
      .ok (0, recounted m' c (m'.indexData c - length.toUInt32)) :=
  firmwareRead_guarded ((guard_iff nonneg small).mpr enough) loop

theorem Encodes.push (h : Encodes m c r) (b : UInt8) : Encodes (pushed m c b) c (r.push b) where
  size := h.size
  head := h.head
  tail := by
    rw [pushed_tail]
    exact h.next_tail
  count := h.count
  cells i := by
    simp only [pushed, Ring.push]
    rw [← ofNat_word h.tail]
    by_cases same : i = r.tail
    · rw [same, Function.update_self, Function.update_self]
    · have apart : address (m.bufferStart c) i ≠ address (m.bufferStart c) r.tail :=
        fun eq => same (address_injective h.size_lt eq)
      rw [Function.update_of_ne same, ← h.cells i]
      exact Function.update_of_ne apart _ _

theorem Encodes.recount (h : Encodes m c r) {index : UInt32} {k : Nat} (value : index.toNat = k)
    (le : k ≤ n) : Encodes (recounted m c index) c (r.recount k le) where
  size := h.size
  head := h.head
  tail := h.tail
  count := by
    rw [recounted_indexData]
    exact value
  cells := h.cells

theorem Encodes.seek (h : Encodes m c r) : Encodes (sought m c) c (r.seek 1) where
  size := h.size
  head := by
    rw [sought_head]
    exact h.next_head
  tail := h.tail
  count := h.count
  cells := h.cells

theorem Encodes.pushed_frame (h : Encodes m c r) (b : UInt8) : Frame c m (pushed m c b) where
  initCheck := rfl
  channelSize := rfl
  bufferStart := rfl
  indexData _ _ := rfl
  head _ _ := rfl
  tail _ other := Function.update_of_ne other _ _
  data k outside := by
    apply Function.update_of_ne
    rintro rfl
    exact outside ⟨r.tail, by rw [h.size]; exact r.tail.isLt, by rw [ofNat_word h.tail]⟩

theorem recounted_frame (m : Ram) (c : Channel) (index : UInt32) :
    Frame c m (recounted m c index) where
  initCheck := rfl
  channelSize := rfl
  bufferStart := rfl
  indexData _ other := Function.update_of_ne other _ _
  head _ _ := rfl
  tail _ _ := rfl
  data _ _ := rfl

theorem sought_frame (m : Ram) (c : Channel) : Frame c m (sought m c) where
  initCheck := rfl
  channelSize := rfl
  bufferStart := rfl
  indexData _ _ := rfl
  head _ other := Function.update_of_ne other _ _
  tail _ _ := rfl
  data _ _ := rfl

/-- `write_buffer` of the driver is `put`, on a full ring too. -/
theorem Encodes.written (h : Encodes m c r) (b : UInt8) :
    Encodes (Driver.written m c b) c (r.put b) ∧ Frame c m (Driver.written m c b) := by
  have index : m.indexData c ≤ m.channelSize c := UInt32.le_iff_toNat_le.mpr h.count_le
  have value : (saturated m c 1).toNat = min ((r.push b).count + 1) n := by
    rw [toNat_saturated, h.count, h.size, Ring.push_count]
  rw [written_eq index]
  exact ⟨(h.push b).recount value (Nat.min_le_right _ _),
    (h.pushed_frame b).trans (recounted_frame _ _ _)⟩

theorem Encodes.consumed (h : Encodes m c r) (some : m.indexData c ≠ 0) :
    Encodes (Driver.consumed m c) c (r.release 1) ∧ Frame c m (Driver.consumed m c) := by
  have value : (m.indexData c - 1).toNat = r.count - 1 := by rw [toNat_sub_one some, h.count]
  have same : Driver.consumed m c = recounted (sought m c) c (m.indexData c - 1) := rfl
  rw [same]
  exact ⟨h.seek.recount value _, (sought_frame m c).trans (recounted_frame _ _ _)⟩

end channel

def storedBytes (pruData : Nat → UInt8) : (length : Nat) → List UInt8
  | 0 => []
  | i + 1 => pruData (i + 1) :: storedBytes pruData i

@[simp] theorem storedBytes_length (pruData : Nat → UInt8) (length : Nat) :
    (storedBytes pruData length).length = length := by
  induction length with
  | zero => rfl
  | succ i ih => simp [storedBytes, ih]

section firmware
variable {m : Ram} {c : Channel} {n : Nat} {r : Ring UInt8 n}

theorem Encodes.writeLoop (h : Encodes m c r) (i : Nat) :
    ∃ m', (Firmware.writeLoop c i).run m = .ok ((), m') ∧
      Encodes m' c (r.pushAll (storedBytes m.pruData i)) ∧ Frame c m m' ∧
      m'.indexData = m.indexData := by
  induction i generalizing m r with
  | zero => exact ⟨m, rfl, h, Frame.refl c m, rfl⟩
  | succ i ih =>
    obtain ⟨m', run, encodes, frame, index⟩ := ih (h.push (m.pruData (i + 1)))
    refine ⟨m', ?_, encodes, (h.pushed_frame _).trans frame, index⟩
    simpa [Firmware.writeLoop, tailCell, advanceTail, umod_pos _ h.pos, pushed] using run

/-- `write_buffer` of the firmware is `putAll` of the bytes it stores, for every length. -/
theorem Encodes.firmwareWrite (h : Encodes m c r) (small : n < 2 ^ 31) {length : Int32}
    (nonneg : 0 ≤ length) :
    ∃ m', (Firmware.writeBuffer c length).run m = .ok (0, m') ∧
      Encodes m' c (r.putAll (storedBytes m.pruData length.toNatClampNeg)) ∧ Frame c m m' := by
  obtain ⟨m', loop, encodes, frame, index⟩ := h.writeLoop length.toNatClampNeg
  have le := r.count_le
  have indexSmall : (m'.indexData c).toNat < 2 ^ 31 := by rw [index, h.count]; omega
  have count := countUp_run indexSmall nonneg
  have value : (saturated m' c length.toNatClampNeg).toNat =
      min ((r.pushAll (storedBytes m.pruData length.toNatClampNeg)).count +
        (storedBytes m.pruData length.toNatClampNeg).length) n := by
    rw [toNat_saturated, encodes.count, encodes.size, storedBytes_length]
  refine ⟨_, ?_, encodes.recount value (Nat.min_le_right _ _), frame.trans (recounted_frame _ _ _)⟩
  rw [Firmware.writeBuffer, Prog.run_bind_ok loop, Prog.run_bind_ok count]
  rfl

theorem Encodes.readLoop (h : Encodes m c r) (left i : Nat) :
    ∃ m', (Firmware.readLoop c left i).run m = .ok ((), m') ∧
      Encodes m' c (r.seek left) ∧ Frame c m m' ∧ m'.indexData = m.indexData ∧
      (∀ j, j < i → m'.pruData j = m.pruData j) ∧
      ∀ j, j < left → m'.pruData (i + j) = r.cells (around r.head j) := by
  induction left generalizing m r i with
  | zero =>
    refine ⟨m, rfl, ?_, Frame.refl c m, rfl, fun _ _ => rfl, fun j hj => absurd hj (by omega)⟩
    rw [show r.seek 0 = r from Ring.ext_fields rfl (around_zero _) rfl rfl]
    exact h
  | succ left ih =>
    let first : Ram := { sought m c with
      pruData := Function.update m.pruData i (r.cells r.head) }
    have here : Encodes first c (r.seek 1) :=
      ⟨h.seek.size, h.seek.head, h.seek.tail, h.seek.count, h.seek.cells⟩
    obtain ⟨m', run, encodes, frame, index, before, after⟩ := ih here (i + 1)
    refine ⟨m', ?_, ?_, ?_, index, ?_, ?_⟩
    · simpa [Firmware.readLoop, headCell, advanceHead, umod_pos _ h.pos, h.head_cell, first, sought]
        using run
    · rw [show r.seek (left + 1) = (r.seek 1).seek left from
        Ring.ext_fields rfl (by simp [Ring.seek, Nat.add_comm]) rfl rfl]
      exact encodes
    · exact (sought_frame m c).trans ⟨frame.initCheck, frame.channelSize, frame.bufferStart,
        frame.indexData, frame.head, frame.tail, frame.data⟩
    · intro j hj
      rw [before j (by omega)]
      exact Function.update_of_ne (by omega) _ _
    · intro j hj
      cases j with
      | zero =>
        rw [Nat.add_zero, before i (by omega), around_zero]
        exact Function.update_self i _ _
      | succ j =>
        have later := after j (by omega)
        rw [show i + 1 + j = i + (j + 1) by omega] at later
        rw [later, Nat.add_comm j 1, ← around_around]
        rfl

theorem Encodes.firmwareRead (h : Encodes m c r) (small : n < 2 ^ 31) {length : Int32}
    (nonneg : 0 ≤ length) (enough : length.toNatClampNeg ≤ r.count) :
    ∃ m', (Firmware.readBuffer c length).run m = .ok (0, m') ∧
      Encodes m' c (r.release length.toNatClampNeg) ∧ Frame c m m' ∧
      (List.range length.toNatClampNeg).map m'.pruData =
        window r.cells r.head length.toNatClampNeg := by
  obtain ⟨m', loop, encodes, frame, index, -, bytes⟩ := h.readLoop length.toNatClampNeg 0
  have le := r.count_le
  have count := h.count
  have value : (m'.indexData c - length.toUInt32).toNat = r.count - length.toNatClampNeg := by
    rw [toNat_sub_length nonneg (by rw [index, count]; exact enough), index, count]
  refine ⟨_, firmwareRead_accepted (by omega) nonneg (by omega) loop, encodes.recount value _,
    frame.trans (recounted_frame _ _ _), ?_⟩
  apply List.map_congr_left
  intro j mem
  have here := bytes j (List.mem_range.mp mem)
  rwa [Nat.zero_add] at here

theorem Encodes.firmwareRead_short (h : Encodes m c r) (small : n < 2 ^ 31) {length : Int32}
    (nonneg : 0 ≤ length) (short : r.count < length.toNatClampNeg) :
    (Firmware.readBuffer c length).run m = .ok (-1, m) := by
  have le := r.count_le
  have count := h.count
  exact firmwareRead_refused (by omega) nonneg (by omega)

end firmware

/-- Ten positive sizes that fit the ring bytes. The rings lie one behind the other. -/
structure Layout where
  size : Channel → Nat
  positive : ∀ c, 0 < size c
  fits : ∑ c, size c ≤ totalBufferSize

def Layout.start (L : Layout) : Channel → Nat := Driver.startOf L.size

theorem Layout.end_le (L : Layout) (c : Channel) : L.start c + L.size c ≤ totalBufferSize :=
  Nat.le_trans (Driver.startOf_add_size_le L.size c) L.fits

theorem Layout.size_small (L : Layout) (c : Channel) : L.size c < 2 ^ 31 := by
  have := L.end_le c
  simp only [totalBufferSize] at this
  omega

structure Laid (L : Layout) (m : Ram) : Prop where
  size : ∀ c, (m.channelSize c).toNat = L.size c
  start : ∀ c, (m.bufferStart c).toNat = L.start c

theorem Laid.frame {L : Layout} {c : Channel} {m m' : Ram} (laid : Laid L m)
    (frame : Frame c m m') : Laid L m' := by
  constructor
  · intro d
    rw [frame.channelSize, laid.size]
  · intro d
    rw [frame.bufferStart, laid.start]

theorem Laid.cell {L : Layout} {m : Ram} (laid : Laid L m) (c : Channel) {i : Nat}
    (bound : i < L.size c) : (m.bufferStart c + UInt32.ofNat i).toNat = L.start c + i := by
  have top := L.end_le c
  simp only [totalBufferSize] at top
  rw [UInt32.toNat_add, UInt32.toNat_ofNat_of_lt' (by change i < 2 ^ 32; omega), laid.start]
  omega

theorem Laid.in_region {L : Layout} {m : Ram} (laid : Laid L m) {c : Channel} {k : UInt32}
    (inside : InRegion m c k) : L.start c ≤ k.toNat ∧ k.toNat < L.start c + L.size c := by
  obtain ⟨i, bound, rfl⟩ := inside
  rw [laid.size] at bound
  rw [laid.cell c bound]
  omega

theorem Laid.regions_disjoint {L : Layout} {m : Ram} (laid : Laid L m) {c d : Channel}
    (other : d ≠ c) {k : UInt32} (here : InRegion m d k) : ¬ InRegion m c k := by
  intro there
  have hd := laid.in_region here
  have hc := laid.in_region there
  rcases lt_or_gt_of_ne other with less | less
  · have := Driver.startOf_add_size_le_start L.size less
    simp only [Layout.start] at hd hc
    omega
  · have := Driver.startOf_add_size_le_start L.size less
    simp only [Layout.start] at hd hc
    omega

theorem Encodes.frame {L : Layout} {c d : Channel} {m m' : Ram} {n : Nat} {r : Ring UInt8 n}
    (h : Encodes m d r) (laid : Laid L m) (other : d ≠ c) (frame : Frame c m m') :
    Encodes m' d r where
  size := by rw [frame.channelSize, h.size]
  head := by rw [frame.head d other, h.head]
  tail := by rw [frame.tail d other, h.tail]
  count := by rw [frame.indexData d other, h.count]
  cells i := by
    have here : InRegion m d (m.bufferStart d + UInt32.ofNat i) :=
      ⟨i, by rw [h.size]; exact i.isLt, rfl⟩
    rw [frame.bufferStart, frame.data _ (laid.regions_disjoint other here), h.cells]

def unreadCells (m : Ram) (c : Channel) : List UInt32 :=
  (List.range (m.indexData c).toNat).map fun j =>
    m.bufferStart c + UInt32.ofNat (((m.head c).toNat + j) % (m.channelSize c).toNat)

def unread (m : Ram) (c : Channel) : List UInt8 := (unreadCells m c).map m.data

theorem Encodes.unreadCells {m : Ram} {c : Channel} {n : Nat} {r : Ring UInt8 n}
    (h : Encodes m c r) :
    unreadCells m c = window (address (m.bufferStart c)) r.head r.count := by
  simp only [PruBridge.unreadCells, window, h.count, h.head, h.size, around, address]

theorem Encodes.unread {m : Ram} {c : Channel} {n : Nat} {r : Ring UInt8 n} (h : Encodes m c r) :
    unread m c = r.unread := by
  rw [PruBridge.unread, h.unreadCells, Ring.unread, window, window, List.map_map]
  apply List.map_congr_left
  intro j _
  exact h.cells (around r.head j)

end PruBridge
