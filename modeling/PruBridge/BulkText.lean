import PruBridge.FirmwareCounter
import PruBridge.Flush
import PruBridge.PointerDriver

/-!
The files `ch9_read` and `ch10_read` of the legacy drivers (`src/driver/legacy`): the channel is
emptied into an array on the stack, which is printed up to its first zero byte. The rest of
`pru_bridge_firmware.c` handles the rings as the driver with the array does, and shares its
definitions here.
-/
namespace PruBridge
open AtomicProgram MachineWords

/-- `scnprintf(buf, PAGE_SIZE,"%s\n",data)`: what it leaves in `buf`. -/
def lineOf (data : Nat → UInt8) : Driver.Text :=
  (((List.range (pageSize - 1)).map data).takeWhile (· ≠ 0) ++ [10]).take (pageSize - 1)

/-- The stack from `uint8_t data[size]` on: the array, not initialised, and what lies behind. -/
def stackOf (size : Nat) (array behind : Nat → UInt8) (j : Nat) : UInt8 :=
  if j < size then array j else behind (j - size)

/-- `pru_bridge_ch9_read` and `pru_bridge_ch10_read` of `pru_bridge_firmware.c`. -/
def Legacy.bulkRead (ringNo : Channel) (array behind : Nat → UInt8) : Code Driver.Text := do
  let size ← load (.channelSize ringNo)
  let data ← Driver.flushBuffer ringNo (stackOf size.toNat array behind)
  pure (lineOf data)

def Legacy.ch9Read : (array behind : Nat → UInt8) → Code Driver.Text := Legacy.bulkRead 8
def Legacy.ch10Read : (array behind : Nat → UInt8) → Code Driver.Text := Legacy.bulkRead 9

/-- The same two handlers of `pru_bridge_pointer.c`. -/
def PointerDriver.bulkRead (ringNo : Channel) (array behind : Nat → UInt8) :
    PointerDriver.Code Driver.Text := do
  let size ← PointerDriver.load (.channelSize ringNo)
  let data ← PointerDriver.flushBuffer ringNo (stackOf size.toNat array behind)
  pure (lineOf data)

def PointerDriver.ch9Read : (array behind : Nat → UInt8) → PointerDriver.Code Driver.Text :=
  PointerDriver.bulkRead 8
def PointerDriver.ch10Read : (array behind : Nat → UInt8) → PointerDriver.Code Driver.Text :=
  PointerDriver.bulkRead 9

/-- The handler puts out `xs` and a newline, whatever its array holds before. -/
def Delivers {Cell Fault σ : Type} {Val : Cell → Type} [Memory σ Cell Val]
    (read : (array behind : Nat → UInt8) → Prog Cell Val Fault Driver.Text) (m : σ)
    (behind : Nat → UInt8) (xs : List UInt8) : Prop :=
  ∀ array, ∃ m', (read array behind).run m = .ok (xs ++ [10], m')

/-- The content has no zero byte and fills the channel, and a zero byte happens to lie behind the
    array. Where only one more byte goes into the page, a newline there does as well. -/
structure Printable (xs : List UInt8) (size : Nat) (behind : Nat → UInt8) : Prop where
  nonzero : 0 ∉ xs
  full : xs.length = size
  ended : behind 0 = 0 ∨ (xs.length + 2 = pageSize ∧ behind 0 = 10)

section line

theorem not_mem_lineOf (data : Nat → UInt8) : 0 ∉ lineOf data := by
  intro mem
  rcases List.mem_append.mp (List.mem_of_mem_take mem) with inside | last
  · have nonzero := List.mem_takeWhile_imp inside
    simp at nonzero
  · cases List.mem_singleton.mp last

theorem map_filledWith (byte stack : Nat → UInt8) {len n : Nat} (le : len ≤ n) :
    (List.range n).map (filledWith byte len 0 stack) =
      (List.range len).map byte ++ (List.range' len (n - len)).map stack := by
  have split : List.range n = List.range len ++ List.range' len (n - len) := by
    have whole := @List.range'_append_1 0 len (n - len)
    rw [Nat.zero_add, Nat.add_sub_cancel' le] at whole
    rw [List.range_eq_range', List.range_eq_range', whole]
  rw [split, List.map_append]
  congr 1
  · apply List.map_congr_left
    intro j mem
    have less := List.mem_range.mp mem
    unfold filledWith
    rw [if_pos (by omega), Nat.sub_zero]
  · apply List.map_congr_left
    intro j mem
    have past := List.mem_range'_1.mp mem
    unfold filledWith
    rw [if_neg (by omega)]

theorem lineOf_filled (byte stack : Nat → UInt8) {len : Nat} (short : len + 1 < pageSize)
    (content : 0 ∉ (List.range len).map byte) :
    lineOf (filledWith byte len 0 stack) = (List.range len).map byte ++
      (((List.range' len (pageSize - 1 - len)).map stack).takeWhile (· ≠ 0) ++ [10]).take
        (pageSize - 1 - len) := by
  have nonzero : ∀ b ∈ (List.range len).map byte, decide (b ≠ 0) = true := by
    intro b mem
    apply decide_eq_true
    intro zero
    subst zero
    exact content mem
  have length : ((List.range len).map byte).length = len := by
    rw [List.length_map, List.length_range]
  unfold lineOf
  rw [map_filledWith byte stack (by omega), List.takeWhile_append_of_pos nonzero,
    List.append_assoc, List.take_append, length, List.take_of_length_le (by omega)]

theorem lineOf_filled_iff (byte stack : Nat → UInt8) {len : Nat} (short : len + 1 < pageSize) :
    lineOf (filledWith byte len 0 stack) = (List.range len).map byte ++ [10] ↔
      0 ∉ (List.range len).map byte ∧
        (stack len = 0 ∨ (len + 2 = pageSize ∧ stack len = 10)) := by
  have content : lineOf (filledWith byte len 0 stack) = (List.range len).map byte ++ [10] →
      0 ∉ (List.range len).map byte := by
    intro same mem
    apply not_mem_lineOf (filledWith byte len 0 stack)
    rw [same]
    exact List.mem_append_left _ mem
  rw [← and_iff_right_of_imp content]
  apply and_congr_right
  intro nonzero
  obtain ⟨k, room⟩ : ∃ k, pageSize - 1 - len = k + 1 := ⟨pageSize - 2 - len, by omega⟩
  rw [lineOf_filled byte stack short nonzero, List.append_cancel_left_eq, room,
    List.range'_succ, List.map_cons]
  by_cases ends : stack len = 0
  · rw [List.takeWhile_cons_of_neg (by simp [ends])]
    exact iff_of_true (by simp) (Or.inl ends)
  · rw [List.takeWhile_cons_of_pos (by simp [ends]), List.cons_append, List.take_succ_cons,
      List.cons.injEq, List.take_eq_nil_iff]
    constructor
    · intro both
      rcases both with ⟨newline, full | none⟩
      · exact Or.inr ⟨by omega, newline⟩
      · exact absurd none (List.append_ne_nil_of_right_ne_nil _ (List.cons_ne_nil 10 []))
    · intro either
      rcases either with zero | full
      · exact absurd zero ends
      · exact ⟨full.2, Or.inl (by omega)⟩

end line

theorem delivers_iff {Cell Fault σ : Type} {Val : Cell → Type} [Memory σ Cell Val]
    {read : (array behind : Nat → UInt8) → Prog Cell Val Fault Driver.Text} {m : σ}
    {behind byte : Nat → UInt8} {size len : Nat} (le : len ≤ size) (short : len + 1 < pageSize)
    (prints : ∀ array, ∃ m', (read array behind).run m =
      .ok (lineOf (filledWith byte len 0 (stackOf size array behind)), m')) :
    Delivers read m behind ((List.range len).map byte) ↔
      Printable ((List.range len).map byte) size behind := by
  have each : Delivers read m behind ((List.range len).map byte) ↔ ∀ array,
      lineOf (filledWith byte len 0 (stackOf size array behind)) =
        (List.range len).map byte ++ [10] := by
    apply forall_congr'
    intro array
    obtain ⟨m', run⟩ := prints array
    rw [run]
    constructor
    · intro delivers
      obtain ⟨m'', same⟩ := delivers
      exact (Prod.mk.inj (Except.ok.inj same)).1
    · intro same
      rw [same]
      exact ⟨m', rfl⟩
  have length : ((List.range len).map byte).length = len := by
    rw [List.length_map, List.length_range]
  simp only [each, lineOf_filled_iff byte _ short]
  constructor
  · intro all
    have full : len = size := by
      by_contra other
      -- an array of ones gives at least one byte too many
      have ended := (all fun _ => 1).2
      unfold stackOf at ended
      rw [if_pos (by omega)] at ended
      rcases ended with zero | newline
      · cases zero
      · cases newline.2
    have ended := (all fun _ => 0).2
    unfold stackOf at ended
    rw [if_neg (by omega), full, Nat.sub_self] at ended
    exact ⟨(all fun _ => 0).1, length.trans full, by rwa [length, full]⟩
  · intro printable array
    have full := printable.full
    have ended := printable.ended
    rw [length] at full ended
    refine ⟨printable.nonzero, ?_⟩
    unfold stackOf
    rw [if_neg (by omega), full, Nat.sub_self]
    rwa [full] at ended

/-- The driver with the array and the firmware after an init: calls that stay in `ring->data` and
    have room for what they write, and emptied channels. -/
inductive Legacy.Reached : Ram → Prop where
  | init {m : Ram} (init : AfterInit m) : Reached m
  | call {m m' : Ram} {op : Op} {out : Outcome} (before : Reached m) (nonneg : op.Nonneg)
      (room : excess op m = 0) (run : op.execInside m = some (out, m')) : Reached m'
  | flush {m m' : Ram} {c : Channel} {data data' : Nat → UInt8} (before : Reached m)
      (inside : Driver.InBounds (Driver.flushBuffer c data) m)
      (run : (Driver.flushBuffer c data).run m = .ok (data', m')) : Reached m'

/-- The ring of a channel is filled from the head up to the tail, with cells of `ring->data`. -/
structure Holding (m : Ram) (c : Channel) : Prop where
  index : m.indexData c ≤ m.channelSize c
  head : m.channelSize c ≠ 0 → m.head c < m.channelSize c
  tail : m.channelSize c ≠ 0 → (m.tail c).toNat =
    ((m.head c).toNat + (m.indexData c).toNat) % (m.channelSize c).toNat
  cells : CellsFit m c (m.head c) (m.indexData c).toNat

section array
variable {m : Ram} {c : Channel}

theorem Holding.idle (holding : Holding m c) (zero : m.channelSize c = 0) :
    m.indexData c = 0 := by
  have le := UInt32.le_iff_toNat_le.mp holding.index
  rw [zero, UInt32.toNat_zero] at le
  exact UInt32.toNat_inj.mp (Nat.le_zero.mp le)

theorem Holding.congr {m' : Ram} (holding : Holding m c)
    (size : m'.channelSize c = m.channelSize c) (start : m'.bufferStart c = m.bufferStart c)
    (index : m'.indexData c = m.indexData c) (head : m'.head c = m.head c)
    (tail : m'.tail c = m.tail c) : Holding m' c := by
  have cells := holding.cells
  unfold CellsFit at cells
  constructor
  · rw [index, size]
    exact holding.index
  · rw [head, size]
    exact holding.head
  · rw [tail, head, index, size]
    exact holding.tail
  · unfold CellsFit
    rw [head, index, start, size]
    exact cells

theorem Holding.untouched {d : Channel} {m' : Ram} (holding : Holding m d)
    (same : Untouched c m m') (other : d ≠ c) : Holding m' d :=
  holding.congr (congrFun same.channelSize d) (congrFun same.bufferStart d)
    (same.indexData d other) (same.head d other) (same.tail d other)

theorem Holding.tail_lt (holding : Holding m c) (nonzero : m.channelSize c ≠ 0) :
    m.tail c < m.channelSize c := by
  rw [UInt32.lt_iff_toNat_lt, holding.tail nonzero]
  exact Nat.mod_lt _ (toNat_pos nonzero)

theorem Holding.drained (holding : Holding m c) (nonzero : m.channelSize c ≠ 0) {k : Nat}
    (enough : k ≤ (m.indexData c).toNat) : Holding (drained m c k) c := by
  have pos := toNat_pos nonzero
  have le := UInt32.le_iff_toNat_le.mp holding.index
  have bound := (m.indexData c).toNat_lt
  have word : (UInt32.ofNat k).toNat = k :=
    UInt32.toNat_ofNat_of_lt' (by change k < 2 ^ 32; omega)
  have fewer : (m.indexData c - UInt32.ofNat k).toNat = (m.indexData c).toNat - k := by
    rw [UInt32.toNat_sub_of_le _ _ (UInt32.le_iff_toNat_le.mpr (by omega)), word]
  have count : ((PruBridge.drained m c k).indexData c).toNat = (m.indexData c).toNat - k := by
    unfold PruBridge.drained
    rw [recounted_indexData, fewer]
  have moved : ((PruBridge.drained m c k).head c).toNat =
      ((m.head c).toNat + k) % (m.channelSize c).toNat :=
    (congrArg UInt32.toNat (soughtBy_head k)).trans (toNat_ofNat_mod _ pos)
  have sum : k + ((m.indexData c).toNat - k) = (m.indexData c).toNat := by omega
  constructor
  · rw [UInt32.le_iff_toNat_le, count]
    exact Nat.le_trans (Nat.sub_le _ _) le
  · exact fun _ => soughtBy_lt pos k
  · intro _
    rw [moved, count]
    change (m.tail c).toNat = (_ + _) % (m.channelSize c).toNat
    rw [Nat.mod_add_mod, Nat.add_assoc, sum]
    exact holding.tail nonzero
  · have cells := holding.cells
    rw [← sum] at cells
    rw [count]
    exact ((cellsFit_add_iff moved _).mp cells).2

theorem Holding.driverRead (holding : Holding m c) {value : UInt8} {m' : Ram}
    (run : (Driver.readBuffer c).run m = .ok (value, m')) : Holding m' c := by
  by_cases none : m.indexData c = 0
  · rw [Driver.readBuffer_run_empty m c none] at run
    cases run
    exact holding
  · have nonzero : m.channelSize c ≠ 0 := fun zero => none (holding.idle zero)
    rw [Driver.readBuffer_run m c nonzero none, consumed_eq (holding.head nonzero)] at run
    cases run
    exact holding.drained nonzero (toNat_pos none)

theorem Holding.firmwareRead (holding : Holding m c) {length ret : Int32} (nonneg : 0 ≤ length)
    {m' : Ram} (run : (Firmware.readBuffer c length).run m = .ok (ret, m')) : Holding m' c := by
  by_cases guard : (m.indexData c).toInt32 - length ≥ 0
  · have passed := guard
    rw [signed_guard_iff] at passed
    have value := toInt_length nonneg
    have enough : length.toNatClampNeg ≤ (m.indexData c).toNat := by omega
    have word : UInt32.ofNat length.toNatClampNeg = length.toUInt32 :=
      ofNat_word (toNat_length nonneg)
    by_cases zero : m.channelSize c = 0
    · have rounds : length.toNatClampNeg = 0 := by
        rw [holding.idle zero, UInt32.toNat_zero] at enough
        exact Nat.le_zero.mp enough
      have loop : (Firmware.readLoop c length.toNatClampNeg 0).run m = .ok ((), m) := by
        rw [rounds]
        rfl
      have same : m.indexData c - length.toUInt32 = m.indexData c := by
        rw [← word, rounds]
        exact UInt32.sub_zero _
      rw [firmwareRead_guarded guard loop] at run
      cases run
      exact holding.congr rfl rfl ((recounted_indexData _).trans same) rfl rfl
    · have taken := holding.drained zero enough
      unfold PruBridge.drained at taken
      rw [word] at taken
      rw [firmwareRead_guarded guard (readLoop_run (holding.head zero) _ 0)] at run
      cases run
      exact taken.congr rfl rfl rfl rfl rfl
  · rw [(firmwareRead_stopped guard).2] at run
    cases run
    exact holding

theorem Holding.driverWrite (holding : Holding m c) {b : UInt8}
    (room : (m.indexData c).toNat < (m.channelSize c).toNat)
    (inside : Driver.InBounds (Driver.writeBuffer c b) m) {m' : Ram}
    (run : (Driver.writeBuffer c b).run m = .ok ((), m')) : Holding m' c := by
  have nonzero := ne_zero_of_lt (UInt32.lt_iff_toNat_lt.mpr room)
  have tail := holding.tail nonzero
  have cell := (driverWrite_inBounds_iff (holding.tail_lt nonzero) b).mp inside
  have count := written_count room b
  rw [Driver.writeBuffer_run m c b nonzero] at run
  cases run
  constructor
  · exact written_index_le holding.index b
  · exact holding.head
  · intro _
    rw [Driver.written_tail, toNat_next (holding.tail_lt nonzero), tail, count, Nat.mod_add_mod]
    rfl
  · rw [count]
    exact (cellsFit_add_iff tail 1).mpr ⟨holding.cells, cell⟩

theorem countedUp_room {length : Int32} (nonneg : 0 ≤ length)
    (room : (m.indexData c).toNat + length.toNatClampNeg ≤ (m.channelSize c).toNat) :
    (countedUp m c length).toNat = (m.indexData c).toNat + length.toNatClampNeg := by
  have bound := (m.channelSize c).toNat_lt
  have value := toNat_length nonneg
  have added := UInt32.toNat_add (m.indexData c) length.toUInt32
  rw [value] at added
  unfold countedUp
  split
  · rename_i less
    have fewer := UInt32.lt_iff_toNat_lt.mp less
    omega
  · rename_i full
    have least := mt UInt32.lt_iff_toNat_lt.mpr full
    omega

theorem Holding.firmwareWrite (holding : Holding m c) {length ret : Int32} (nonneg : 0 ≤ length)
    (room : (m.indexData c).toNat + length.toNatClampNeg ≤ (m.channelSize c).toNat)
    (inside : Driver.InBounds (Firmware.writeBuffer c length) m) {m' : Ram}
    (run : (Firmware.writeBuffer c length).run m = .ok (ret, m')) : Holding m' c := by
  have sum := countedUp_room nonneg room
  by_cases zero : m.channelSize c = 0
  · have none : length.toNatClampNeg = 0 := by
      rw [zero, UInt32.toNat_zero] at room
      omega
    have same : countedUp m c length = m.indexData c := by
      rw [← UInt32.toNat_inj, sum, none]
      rfl
    rw [firmwareWrite_run (Or.inr none), none, same] at run
    cases run
    exact holding.congr rfl rfl (recounted_indexData _) rfl rfl
  · have pos := toNat_pos zero
    have tail := holding.tail zero
    have cells := (firmwareWrite_inBounds_iff (holding.tail_lt zero) length).mp inside
    obtain ⟨data, pushes⟩ :=
      pushedAll_eq (holding.tail_lt zero) (storedBytes m.pruData length.toNatClampNeg)
    rw [firmwareWrite_run (Or.inl zero), pushes, storedBytes_length] at run
    cases run
    constructor
    · rw [recounted_indexData]
      exact FirmwareCounter.countedUp_le length
    · exact holding.head
    · intro _
      rw [recounted_indexData, sum]
      change (Function.update m.tail c _ c).toNat = (_ + _) % (m.channelSize c).toNat
      rw [Function.update_self, toNat_ofNat_mod _ pos, tail, Nat.mod_add_mod, Nat.add_assoc]
      rfl
    · rw [recounted_indexData, sum]
      exact (cellsFit_add_iff tail _).mpr ⟨holding.cells, cells⟩

theorem Holding.call {op : Op} (holding : Holding m op.channel) (nonneg : op.Nonneg)
    (room : excess op m = 0) {out : Outcome} {m' : Ram}
    (run : op.execInside m = some (out, m')) : Holding m' op.channel := by
  obtain ⟨inside, run⟩ := execInside_iff.mp run
  obtain ⟨ret, body⟩ := run_of_exec run
  unfold excess at room
  cases op with
  | driverWrite c b =>
    obtain ⟨done, wrote, -⟩ := Prog.exists_of_run_map body
    replace room : (m.indexData c).toNat + 1 - (m.channelSize c).toNat = 0 := room
    have less : (m.indexData c).toNat < (m.channelSize c).toNat := by omega
    exact Holding.driverWrite holding less ((Driver.inBounds_map _ _ _).mp inside) wrote
  | driverRead c =>
    obtain ⟨value, read, -⟩ := Prog.exists_of_run_map body
    exact Holding.driverRead holding read
  | firmwareWrite c pruData length =>
    obtain ⟨ret', wrote, -⟩ := Prog.exists_of_run_map body
    have prepared : Holding { m with pruData := pruData } c :=
      ⟨holding.index, holding.head, holding.tail, holding.cells⟩
    simp only [Op.channel, Op.writes] at room
    have fits : (m.indexData c).toNat + length.toNatClampNeg ≤ (m.channelSize c).toNat := by omega
    exact prepared.firmwareWrite nonneg fits ((Driver.inBounds_map _ _ _).mp inside) wrote
  | firmwareRead c length =>
    obtain ⟨ret', read, -⟩ := Prog.exists_of_run_map body
    exact Holding.firmwareRead holding nonneg read

theorem Holding.flush (holding : Holding m c) {data data' : Nat → UInt8} {m' : Ram}
    (run : (Driver.flushBuffer c data).run m = .ok (data', m')) :
    Holding m' c ∧ Untouched c m m' := by
  let rounds := (m.indexData c).toInt32.toNatClampNeg
  have enough : rounds ≤ (m.indexData c).toNat := toNatClampNeg_le (m.indexData c)
  change (Driver.flushLoop c rounds 0 data).run m = _ at run
  by_cases zero : m.channelSize c = 0
  · have none : rounds = 0 := by
      rw [holding.idle zero, UInt32.toNat_zero] at enough
      exact Nat.le_zero.mp enough
    rw [none] at run
    cases run
    exact ⟨holding, rfl, rfl, rfl, fun _ _ => rfl, fun _ _ => rfl, fun _ _ => rfl⟩
  · rw [flushLoop_run (holding.head zero) rounds 0 enough data] at run
    cases run
    refine ⟨holding.drained zero enough, rfl, rfl, rfl, ?_, ?_, ?_⟩
    · exact fun d other => Function.update_of_ne other _ _
    · exact fun d other => Function.update_of_ne other _ _
    · exact fun _ _ => rfl

theorem Legacy.Reached.holding (reached : Legacy.Reached m) (c : Channel) : Holding m c := by
  induction reached generalizing c with
  | init init =>
    obtain ⟨index, head, tail⟩ := init.empty c
    constructor
    · rw [index]
      exact UInt32.le_iff_toNat_le.mpr (Nat.zero_le _)
    · intro nonzero
      rw [head]
      exact UInt32.lt_iff_toNat_lt.mpr (toNat_pos nonzero)
    · intro _
      rw [index, head, tail]
      exact (Nat.zero_mod _).symm
    · rw [index]
      exact cellsFit_zero _
  | call before nonneg room run ih =>
    rename_i m₁ m' op out
    by_cases same : c = op.channel
    · subst same
      exact (ih op.channel).call nonneg room run
    · exact (ih c).untouched (exec_untouched (execInside_iff.mp run).2) same
  | flush before inside run ih =>
    rename_i m₁ m' d data data'
    obtain ⟨here, untouched⟩ := (ih d).flush run
    by_cases same : c = d
    · subst same
      exact here
    · exact (ih c).untouched untouched same

theorem Legacy.Reached.write (reached : Legacy.Reached m)
    (room : m.indexData c < m.channelSize c)
    (inside : (m.bufferStart c + m.tail c).toNat < totalBufferSize) (b : UInt8) :
    Legacy.Reached (Driver.written m c b) := by
  have less := UInt32.lt_iff_toNat_lt.mp room
  have none : excess (.driverWrite c b) m = 0 := by
    change (m.indexData c).toNat + 1 - (m.channelSize c).toNat = 0
    omega
  have inBounds : Driver.InBounds (Op.driverWrite c b).body m :=
    (Driver.inBounds_map _ _ _).mpr ((Driver.write_inBounds_iff m c b).mpr inside)
  have nonneg : (Op.driverWrite c b).Nonneg := trivial
  have run := exec_of_run (.driverWrite c b)
    (Prog.run_map_ok (Driver.writeBuffer_run m c b (ne_zero_of_lt room)))
  exact reached.call nonneg none (execInside_iff.mpr ⟨inBounds, run⟩)

theorem flushLoop_inBounds (head : m.head c < m.channelSize c) (left i : Nat)
    (enough : left ≤ (m.indexData c).toNat) (fits : CellsFit m c (m.head c) left)
    (data : Nat → UInt8) : Driver.InBounds (Driver.flushLoop c left i data) m := by
  induction left generalizing m i data with
  | zero => exact fun _ mem => by cases mem
  | succ left ih =>
    have some : m.indexData c ≠ 0 := by
      intro none
      rw [none, UInt32.toNat_zero] at enough
      omega
    have first := Driver.readBuffer_run m c (ne_zero_of_lt head) some
    obtain ⟨here, others⟩ := (cellsFit_succ head left).mp fits
    have count := toNat_sub_one some
    have next : (Driver.consumed m c).head c < (Driver.consumed m c).channelSize c := by
      rw [Driver.consumed_head]
      exact next_lt head
    have moved : CellsFit (Driver.consumed m c) c ((Driver.consumed m c).head c) left := by
      rw [Driver.consumed_head]
      exact others
    rw [Driver.flushLoop, Driver.inBounds_bind, Driver.read_inBounds_iff]
    refine ⟨fun _ => here, fun value m' run => ?_⟩
    rw [first] at run
    cases run
    exact ih next (i + 1) (by rw [Driver.consumed_indexData, count]; omega) moved _

theorem bulkRead_run (holding : Holding m c) (short : (m.indexData c).toNat + 1 < pageSize)
    (array behind : Nat → UInt8) : ∃ m', (Legacy.bulkRead c array behind).run m =
      .ok (lineOf (filledWith (ringByte m c) (m.indexData c).toNat 0
        (stackOf (m.channelSize c).toNat array behind)), m') := by
  have size : (load (.channelSize c)).run m = .ok (m.channelSize c, m) := rfl
  by_cases zero : m.channelSize c = 0
  · have none := holding.idle zero
    refine ⟨m, ?_⟩
    rw [Legacy.bulkRead, Prog.run_bind_ok size, none, UInt32.toNat_zero, filledWith_zero]
    simp [Driver.flushBuffer, none]
    rfl
  · have small : (m.indexData c).toNat < 2 ^ 31 := by
      simp only [pageSize] at short
      omega
    have flush := flushBuffer_run (holding.head zero) small
      (stackOf (m.channelSize c).toNat array behind)
    rw [Legacy.bulkRead, Prog.run_bind_ok size, Prog.run_bind_ok flush]
    exact ⟨_, rfl⟩

theorem bulkRead_inBounds (holding : Holding m c) (array behind : Nat → UInt8) :
    Driver.InBounds (Legacy.bulkRead c array behind) m := by
  let rounds := (m.indexData c).toInt32.toNatClampNeg
  have enough : rounds ≤ (m.indexData c).toNat := toNatClampNeg_le (m.indexData c)
  let data := stackOf (m.channelSize c).toNat array behind
  have loop : Driver.InBounds (Driver.flushLoop c rounds 0 data) m := by
    by_cases zero : m.channelSize c = 0
    · have none : rounds = 0 := by
        rw [holding.idle zero, UInt32.toNat_zero] at enough
        exact Nat.le_zero.mp enough
      rw [none]
      exact fun _ mem => by cases mem
    · exact flushLoop_inBounds (holding.head zero) rounds 0 enough
        (fun j less => holding.cells j (by omega)) data
  have accesses : (Legacy.bulkRead c array behind).trace m = .load (.channelSize c) ::
      .load (.indexData c) :: (lineOf <$> Driver.flushLoop c rounds 0 data).trace m := by
    rw [map_eq_pure_bind]
    rfl
  rw [Prog.trace_map] at accesses
  intro k mem
  rw [accesses] at mem
  exact loop k mem

theorem array_delivers_iff (holding : Holding m c) (short : (unread m c).length + 1 < pageSize)
    (behind : Nat → UInt8) : Delivers (Legacy.bulkRead c) m behind (unread m c) ↔
      Printable (unread m c) (m.channelSize c).toNat behind := by
  have content : unread m c = (List.range (m.indexData c).toNat).map (ringByte m c) := by
    unfold unread unreadCells
    rw [List.map_map]
    rfl
  rw [content, List.length_map, List.length_range] at short
  rw [content]
  exact delivers_iff (UInt32.le_iff_toNat_le.mp holding.index) short
    fun array => bulkRead_run holding short array behind

end array

end PruBridge
