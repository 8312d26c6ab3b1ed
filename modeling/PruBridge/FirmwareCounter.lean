import PruBridge.RingBounds

/-!
The counter of a channel over runs with bulk calls of any `int` length. A negative length moves
nothing, but the updates of the counter add and subtract it all the same, and the guard of
`read_buffer` may overflow, which has no meaning in C.
-/
namespace PruBridge.FirmwareCounter
open AtomicProgram MachineWords

/-- `(int)index_data - length` is an `int`. -/
def GuardDefined (m : Ram) (c : Channel) (length : Int32) : Prop :=
  -2 ^ 31 ≤ (m.indexData c).toInt32.toInt - length.toInt ∧
    (m.indexData c).toInt32.toInt - length.toInt < 2 ^ 31

/-- A read stays in `ring->data` and lowers the counter by the bytes that it copied out. -/
def ReadCounts (m : Ram) (c : Channel) (length : Int32) : Prop :=
  GuardDefined m c length ∧ Driver.InBounds (Firmware.readBuffer c length) m ∧
  ∃ ret m', (Firmware.readBuffer c length).run m = .ok (ret, m') ∧
    m'.indexData c ≤ m'.channelSize c ∧
    (m'.indexData c).toNat + (payloadStores (Firmware.readBuffer c length) m).length =
      (m.indexData c).toNat

/-- A write stays there too, and raises it by the bytes that it stored, up to the size. -/
def WriteCounts (m : Ram) (c : Channel) (length : Int32) : Prop :=
  Driver.InBounds (Firmware.writeBuffer c length) m ∧
  ∃ ret m', (Firmware.writeBuffer c length).run m = .ok (ret, m') ∧
    m'.indexData c ≤ m'.channelSize c ∧
    (m'.indexData c).toNat = min
      ((m.indexData c).toNat + (dataStores (Firmware.writeBuffer c length) m).length)
      (m.channelSize c).toNat

/-- The cells are in `ring->data`. A negative length is only right on a full channel, whose counter
    it takes below zero. -/
def WriteCountable (m : Ram) (c : Channel) (length : Int32) : Prop :=
  CellsFit m c (m.tail c) length.toNatClampNeg ∧
    (length < 0 → m.indexData c = m.channelSize c ∧ (m.channelSize c).toNat + length.toInt < 0)

def CountsBytes : Op → Ram → Prop
  | .firmwareRead c length, m => ReadCounts m c length
  | .firmwareWrite c pruData length, m => WriteCounts { m with pruData := pruData } c length
  | _, _ => True

def Countable : Op → Ram → Prop
  | .firmwareRead _ length, _ => 0 ≤ length
  | .firmwareWrite c _ length, m => WriteCountable m c length
  | _, _ => True

/-- `P` before every call to channel `c` of a run that stays in `ring->data`. -/
def AtCalls (P : Op → Ram → Prop) (c : Channel) : List Op → Ram → Prop
  | [], _ => True
  | op :: rest, m => (op.channel = c → P op m) ∧
    match op.execInside m with
    | none => True
    | some (_, m') => AtCalls P c rest m'

/-- After `stored` bytes, with right counts so far: until the ring has been filled once, its unread
    bytes end where it was last written. -/
structure Filled (m : Ram) (c : Channel) (stored : Nat) : Prop where
  head : m.head c < m.channelSize c
  index : m.indexData c ≤ m.channelSize c
  tail : (m.tail c).toNat = stored % (m.channelSize c).toNat
  unread : stored < (m.channelSize c).toNat → (m.head c).toNat + (m.indexData c).toNat ≤ stored
  cells : CellsFit m c 0 (min stored (m.channelSize c).toNat)

section filled
variable {m : Ram} {c : Channel} {stored : Nat}

theorem Filled.tail_lt (filled : Filled m c stored) : m.tail c < m.channelSize c := by
  rw [UInt32.lt_iff_toNat_lt, filled.tail]
  exact Nat.mod_lt _ (toNat_pos_of_lt filled.head)

theorem Filled.index_le (filled : Filled m c stored) :
    (m.indexData c).toNat ≤ min stored (m.channelSize c).toNat := by
  have le := UInt32.le_iff_toNat_le.mp filled.index
  have unread := filled.unread
  omega

theorem few_cells {k : Nat} (size : k ≤ (m.channelSize c).toNat) (fits : CellsFit m c 0 k) :
    k ≤ totalBufferSize := by
  by_contra many
  have zero : (0 : UInt32).toNat = 0 := rfl
  have place : ∀ j < k, ((m.bufferStart c).toNat + j) % 2 ^ 32 < totalBufferSize := by
    intro j less
    have here := fits j less
    have bound := (m.channelSize c).toNat_lt
    have word : (UInt32.ofNat j).toNat = j :=
      UInt32.toNat_ofNat_of_lt' (by change j < 2 ^ 32; omega)
    rwa [zero, Nat.zero_add, Nat.mod_eq_of_lt (by omega), UInt32.toNat_add, word] at here
  have first := place 0 (by omega)
  have last := place (totalBufferSize - (m.bufferStart c).toNat) (by omega)
  have word := (m.bufferStart c).toNat_lt
  simp only [totalBufferSize] at *
  omega

theorem Filled.index_small (filled : Filled m c stored) :
    (m.indexData c).toNat ≤ totalBufferSize :=
  Nat.le_trans filled.index_le (few_cells (Nat.min_le_right _ _) filled.cells)

/-- What waits to be read was stored. -/
theorem Filled.reads_fit (filled : Filled m c stored) {k : Nat}
    (enough : k ≤ (m.indexData c).toNat) : CellsFit m c (m.head c) k := by
  have pos := toNat_pos_of_lt filled.head
  have unread := filled.unread
  intro j less
  have inside := Nat.mod_lt ((m.head c).toNat + j) pos
  have here : ((m.head c).toNat + j) % (m.channelSize c).toNat <
      min stored (m.channelSize c).toNat := by
    rcases Nat.lt_or_ge stored (m.channelSize c).toNat with short | full
    · rw [Nat.mod_eq_of_lt (by omega)]
      omega
    · omega
  have cell := filled.cells _ here
  rwa [UInt32.toNat_zero, Nat.zero_add, Nat.mod_mod] at cell

theorem Filled.more (filled : Filled m c stored) {k : Nat} (fits : CellsFit m c (m.tail c) k) :
    CellsFit m c 0 (min (stored + k) (m.channelSize c).toNat) := by
  intro j less
  by_cases before : j < min stored (m.channelSize c).toNat
  · exact filled.cells j before
  · have tail := filled.tail
    rw [Nat.mod_eq_of_lt (by omega)] at tail
    have cell := fits (j - stored) (by omega)
    have place : (m.tail c).toNat + (j - stored) = 0 + j := by omega
    rwa [place] at cell

end filled

section step
variable {m : Ram} {c : Channel} {stored : Nat}

theorem nonneg_iff (length : Int32) : 0 ≤ length ↔ 0 ≤ length.toInt := by
  rw [Int32.le_iff_toInt_le, Int32.toInt_zero]

theorem toNatClampNeg_eq (length : Int32) : length.toNatClampNeg = length.toInt.toNat := rfl

theorem readCounts_iff (filled : Filled m c stored) (length : Int32) :
    ReadCounts m c length ↔ 0 ≤ length := by
  have nonzero := ne_zero_of_lt filled.head
  have guarded := signed_guard_iff (m.indexData c) length
  have rounds := toNatClampNeg_eq length
  have range := toInt_range length
  have le := UInt32.le_iff_toNat_le.mp filled.index
  have small := filled.index_small
  simp only [totalBufferSize] at small
  have signed : (m.indexData c).toInt32.toInt = (m.indexData c).toNat := toInt_small (by omega)
  have reaches := firmwareRead_inBounds_iff filled.head length
  unfold ReadCounts GuardDefined
  rw [signed, nonneg_iff, reaches]
  constructor
  · rintro ⟨⟨-, top⟩, -, ret, m', run, -, sum⟩
    by_contra negative
    have guard := guarded.mpr (Or.inl (by omega))
    obtain ⟨stores, m₁, passed, count, -⟩ := firmwareRead_passed nonzero guard
    have wrapped := toNat_sub_signed (m.indexData c) length
    rw [passed] at run
    cases run
    rw [stores, List.length_range, count] at sum
    omega
  · intro natural
    refine ⟨by omega, fun passed => filled.reads_fit ?_, ?_⟩
    · have enough := guarded.mp passed
      omega
    · by_cases guard : (m.indexData c).toInt32 - length ≥ 0
      · obtain ⟨stores, m', run, count, size⟩ := firmwareRead_passed nonzero guard
        have wrapped := toNat_sub_signed (m.indexData c) length
        have enough := guarded.mp guard
        refine ⟨0, m', run, ?_, ?_⟩
        · rw [size, UInt32.le_iff_toNat_le, count]
          omega
        · rw [stores, List.length_range, count]
          omega
      · obtain ⟨stores, run⟩ := firmwareRead_stopped guard
        refine ⟨-1, m, run, filled.index, ?_⟩
        rw [stores]
        rfl

theorem countedUp_le (length : Int32) : countedUp m c length ≤ m.channelSize c := by
  unfold countedUp
  split
  · rename_i room
    exact UInt32.le_of_lt room
  · exact UInt32.le_refl _

/-- A bulk write on its counter: the number of its stores is its length, if not negative. -/
theorem writeCounts_eq (nonzero : m.channelSize c ≠ 0) (length : Int32) :
    WriteCounts m c length ↔ Driver.InBounds (Firmware.writeBuffer c length) m ∧
      (countedUp m c length).toNat =
        min ((m.indexData c).toNat + length.toNatClampNeg) (m.channelSize c).toNat := by
  let bytes := storedBytes m.pruData length.toNatClampNeg
  have stores := firmwareWrite_stores nonzero length
  have run := @firmwareWrite_run m c length (Or.inl nonzero)
  obtain ⟨-, size, -⟩ := @pushedAll_words m c bytes
  have number : (dataStores (Firmware.writeBuffer c length) m).length =
      length.toNatClampNeg := by
    have placed_length := congrArg List.length (@placed_bytes m c bytes)
    rw [stores, ← List.length_map, placed_length]
    exact storedBytes_length _ _
  unfold WriteCounts
  rw [run, number]
  apply and_congr_right
  intro _
  constructor
  · intro counts
    obtain ⟨ret, m', same, -, sum⟩ := counts
    cases same
    rwa [recounted_indexData] at sum
  · intro sum
    refine ⟨0, _, rfl, ?_, ?_⟩
    · rw [recounted_indexData]
      change _ ≤ (pushedAll m c bytes).channelSize c
      rw [size]
      exact countedUp_le length
    · rwa [recounted_indexData]

theorem writeCounts_iff (filled : Filled m c stored) (length : Int32) :
    WriteCounts m c length ↔ WriteCountable m c length := by
  have sum := toNat_add_signed (m.indexData c) length
  have sign := nonneg_iff length
  have rounds := toNatClampNeg_eq length
  have range := toInt_range length
  have le := UInt32.le_iff_toNat_le.mp filled.index
  have small := filled.index_small
  have negative : length < 0 ↔ length.toInt < 0 := by
    rw [Int32.lt_iff_toInt_lt, Int32.toInt_zero]
  rw [writeCounts_eq (ne_zero_of_lt filled.head), firmwareWrite_inBounds_iff filled.tail_lt]
  unfold WriteCountable countedUp
  apply and_congr_right
  intro _
  simp only [totalBufferSize] at small
  rw [negative, ← UInt32.toNat_inj]
  split
  · rename_i room
    have less := UInt32.lt_iff_toNat_lt.mp room
    omega
  · rename_i full
    have least : ¬ (m.indexData c + length.toUInt32).toNat < (m.channelSize c).toNat :=
      fun less => full (UInt32.lt_iff_toNat_lt.mpr less)
    omega

theorem countsBytes_iff (op : Op) (filled : Filled m op.channel stored) :
    CountsBytes op m ↔ Countable op m := by
  cases op with
  | driverWrite c b => exact Iff.rfl
  | driverRead c => exact Iff.rfl
  | firmwareWrite c pruData length =>
    have prepared : Filled { m with pruData := pruData } c stored :=
      ⟨filled.head, filled.index, filled.tail, filled.unread, filled.cells⟩
    exact writeCounts_iff prepared length
  | firmwareRead c length => exact readCounts_iff filled length

theorem Filled.driverWrite (filled : Filled m c stored) {b : UInt8}
    (inside : Driver.InBounds (Driver.writeBuffer c b) m) :
    Filled (Driver.written m c b) c (stored + 1) := by
  have more := filled.more ((driverWrite_inBounds_iff filled.tail_lt b).mp inside)
  have count : ((Driver.written m c b).indexData c).toNat ≤ (m.indexData c).toNat + 1 := by
    rw [written_eq filled.index, recounted_indexData, toNat_saturated]
    exact Nat.min_le_left _ _
  constructor
  · exact filled.head
  · exact written_index_le filled.index b
  · rw [Driver.written_tail, toNat_next filled.tail_lt, filled.tail]
    exact Nat.mod_add_mod _ _ _
  · intro short
    have before := filled.unread (Nat.lt_of_succ_lt short)
    change (m.head c).toNat + _ ≤ _
    omega
  · exact more

theorem Filled.driverRead (filled : Filled m c stored) (some : m.indexData c ≠ 0) :
    Filled (Driver.consumed m c) c stored := by
  have positive := toNat_pos some
  have count := toNat_sub_one some
  have le := UInt32.le_iff_toNat_le.mp filled.index
  constructor
  · rw [Driver.consumed_head]
    exact next_lt filled.head
  · exact consumed_index_le filled.index some
  · exact filled.tail
  · intro short
    have before := filled.unread short
    change stored < (m.channelSize c).toNat at short
    rw [Driver.consumed_head, Driver.consumed_indexData, toNat_next filled.head, count,
      Nat.mod_eq_of_lt (by omega)]
    omega
  · exact filled.cells

theorem Filled.firmwareWrite (filled : Filled m c stored) {length : Int32}
    (counts : WriteCounts m c length) {ret : Int32} {m' : Ram}
    (run : (Firmware.writeBuffer c length).run m = .ok (ret, m')) :
    Filled m' c (stored + length.toNatClampNeg) := by
  have nonzero := ne_zero_of_lt filled.head
  have pos := toNat_pos nonzero
  let bytes := storedBytes m.pruData length.toNatClampNeg
  obtain ⟨inside, count⟩ := (writeCounts_eq nonzero length).mp counts
  have more := filled.more ((firmwareWrite_inBounds_iff filled.tail_lt length).mp inside)
  obtain ⟨data, pushes⟩ := @pushedAll_eq m c filled.tail_lt bytes
  have ran := @firmwareWrite_run m c length (Or.inl nonzero)
  rw [pushes, storedBytes_length] at ran
  rw [ran] at run
  cases run
  constructor
  · exact filled.head
  · rw [recounted_indexData]
    exact countedUp_le length
  · change (Function.update m.tail c _ c).toNat = _ % (m.channelSize c).toNat
    rw [Function.update_self, toNat_ofNat_mod _ pos, filled.tail, Nat.mod_add_mod]
  · intro short
    change stored + length.toNatClampNeg < (m.channelSize c).toNat at short
    have before := filled.unread (by omega)
    rw [recounted_indexData, count]
    change (m.head c).toNat + _ ≤ _
    omega
  · exact more

theorem Filled.firmwareRead (filled : Filled m c stored) {length : Int32} (nonneg : 0 ≤ length)
    {ret : Int32} {m' : Ram} (run : (Firmware.readBuffer c length).run m = .ok (ret, m')) :
    Filled m' c stored := by
  have small := filled.index_small
  by_cases guard : (m.indexData c).toInt32 - length ≥ 0
  · have enough := (guard_iff nonneg (by simp only [totalBufferSize] at small; omega)).mp guard
    have pos := toNat_pos_of_lt filled.head
    have count := toNat_sub_length nonneg enough
    have le := UInt32.le_iff_toNat_le.mp filled.index
    rw [firmwareRead_guarded guard (readLoop_run filled.head length.toNatClampNeg 0)] at run
    cases run
    constructor
    · exact soughtBy_lt pos length.toNatClampNeg
    · rw [recounted_indexData, UInt32.le_iff_toNat_le]
      change (m.indexData c - length.toUInt32).toNat ≤ (m.channelSize c).toNat
      omega
    · exact filled.tail
    · intro short
      have before := filled.unread short
      change stored < (m.channelSize c).toNat at short
      rw [recounted_indexData]
      change ((soughtBy m c length.toNatClampNeg).head c).toNat +
        (m.indexData c - length.toUInt32).toNat ≤ stored
      rw [soughtBy_head, toNat_ofNat_mod _ pos, Nat.mod_eq_of_lt (by omega), count]
      omega
    · exact filled.cells
  · rw [(firmwareRead_stopped guard).2] at run
    cases run
    exact filled

theorem Filled.own {op : Op} (filled : Filled m op.channel stored) (counts : CountsBytes op m)
    {out : Outcome} {m' : Ram} (run : op.execInside m = some (out, m')) :
    ∃ stored', Filled m' op.channel stored' := by
  obtain ⟨inside, run⟩ := execInside_iff.mp run
  obtain ⟨ret, body⟩ := run_of_exec run
  have nonzero := ne_zero_of_lt filled.head
  cases op with
  | driverWrite c b =>
    obtain ⟨done, wrote, -⟩ := Prog.exists_of_run_map body
    replace wrote : (Driver.writeBuffer c b).run m = .ok (done, m') := wrote
    rw [Driver.writeBuffer_run m c b nonzero] at wrote
    cases wrote
    exact ⟨_, filled.driverWrite ((Driver.inBounds_map _ _ _).mp inside)⟩
  | driverRead c =>
    obtain ⟨value, read, -⟩ := Prog.exists_of_run_map body
    replace read : (Driver.readBuffer c).run m = .ok (value, m') := read
    by_cases none : m.indexData c = 0
    · rw [Driver.readBuffer_run_empty m c none] at read
      cases read
      exact ⟨stored, filled⟩
    · rw [Driver.readBuffer_run m c nonzero none] at read
      cases read
      exact ⟨stored, filled.driverRead none⟩
  | firmwareWrite c pruData length =>
    obtain ⟨ret', wrote, -⟩ := Prog.exists_of_run_map body
    have prepared : Filled { m with pruData := pruData } c stored :=
      ⟨filled.head, filled.index, filled.tail, filled.unread, filled.cells⟩
    exact ⟨_, prepared.firmwareWrite counts wrote⟩
  | firmwareRead c length =>
    obtain ⟨ret', read, -⟩ := Prog.exists_of_run_map body
    exact ⟨stored, filled.firmwareRead ((readCounts_iff filled length).mp counts) read⟩

theorem Filled.untouched {d : Channel} {m' : Ram} (filled : Filled m c stored)
    (same : Untouched d m m') (other : c ≠ d) : Filled m' c stored := by
  have cells := filled.cells
  unfold CellsFit at cells
  rw [← same.bufferStart, ← same.channelSize] at cells
  constructor
  · rw [same.head c other, same.channelSize]
    exact filled.head
  · rw [same.indexData c other, same.channelSize]
    exact filled.index
  · rw [same.tail c other, same.channelSize]
    exact filled.tail
  · rw [same.head c other, same.indexData c other, same.channelSize]
    exact filled.unread
  · exact cells

theorem atCalls_iff (filled : Filled m c stored) (ops : List Op) :
    AtCalls CountsBytes c ops m ↔ AtCalls Countable c ops m := by
  induction ops generalizing m stored with
  | nil => exact Iff.rfl
  | cons op rest ih =>
    have here : (op.channel = c → CountsBytes op m) ↔ (op.channel = c → Countable op m) := by
      apply imp_congr_right
      intro same
      subst same
      exact countsBytes_iff op filled
    unfold AtCalls
    rw [here]
    apply and_congr_right
    intro countable
    cases run : op.execInside m with
    | none => exact Iff.rfl
    | some result =>
      have kept := exec_untouched (execInside_iff.mp run).2
      by_cases same : op.channel = c
      · subst same
        obtain ⟨stored', next⟩ := filled.own (here.mpr countable rfl) run
        exact ih next
      · exact ih (filled.untouched kept (Ne.symm same))

end step

/-- In every run from an initialised state that stays in `ring->data`, whatever the lengths: all
    calls to a channel stay there and count the bytes that they move exactly when each finds its
    length, its counter and its cells countable. -/
theorem calls_count_iff (m : Ram) (init : AfterInit m) (c : Channel)
    (pos : 0 < (m.channelSize c).toNat) (ops : List Op) :
    AtCalls CountsBytes c ops m ↔ AtCalls Countable c ops m := by
  obtain ⟨index, head, tail⟩ := init.empty c
  have filled : Filled m c 0 := by
    constructor
    · rw [head]
      exact UInt32.lt_iff_toNat_lt.mpr pos
    · rw [index, UInt32.le_iff_toNat_le]
      exact Nat.zero_le _
    · rw [tail]
      exact (Nat.zero_mod _).symm
    · intro _
      rw [head, index]
      exact Nat.le_refl 0
    · rw [Nat.zero_min]
      exact cellsFit_zero 0
  exact atCalls_iff filled ops

/-- A write of more than the ring holds, a write of a negative length to the full ring, and a read
    of both bytes. -/
theorem calls_count_full_ring : AtCalls CountsBytes 0
    [.firmwareWrite 0 (fun _ => 7) 5, .firmwareWrite 0 (fun _ => 7) (-3), .firmwareRead 0 2]
      pairsRam :=
  (calls_count_iff pairsRam pairsRam_left.init 0 (by decide) _).mpr
    ⟨fun _ => ⟨by decide, by decide⟩, fun _ => ⟨by decide, by decide⟩,
      fun _ => (by decide : (0 : Int32) ≤ 2), trivial⟩

/-- A read of length -1 from an empty channel returns 0, copies nothing, and makes the counter 1. -/
theorem negative_read_counts_up : AfterInit pairsRam ∧
    (∃ m', (Firmware.readBuffer 0 (-1)).run pairsRam = .ok (0, m') ∧ m'.indexData 0 = 1) ∧
    payloadStores (Firmware.readBuffer 0 (-1)) pairsRam = [] ∧
    ¬ AtCalls CountsBytes 0 [.firmwareRead 0 (-1)] pairsRam := by
  refine ⟨pairsRam_left.init, ⟨_, rfl, rfl⟩, rfl, ?_⟩
  intro counts
  obtain ⟨-, -, ret, m', run, -, sum⟩ := counts.1 rfl
  cases run
  cases sum

end PruBridge.FirmwareCounter
