import PruBridge.Flush
import PruBridge.PointerDriver
import PruBridge.Simulation

/-!
The legacy driver with pointers does what the driver with one flat array does, as long as the
rings fit the array: then no 16-bit word is cut, and two cells never share a pointer.
-/
namespace PruBridge.PointerDriver
open AtomicProgram MachineWords

structure Agrees (m : PruBridge.Ram) (s : Ram) : Prop where
  initCheck : s.initCheck.toNat = m.initCheck.toNat
  channelSize : ∀ c, (s.channelSize c).toNat = (m.channelSize c).toNat
  bufferStart : ∀ c, (s.bufferStart c).toNat = (m.bufferStart c).toNat
  head : ∀ c, (s.head c).toNat = (m.head c).toNat
  tail : ∀ c, (s.tail c).toNat = (m.tail c).toNat
  indexData : ∀ c, (s.indexData c).toNat = (m.indexData c).toNat
  byte : ∀ k, k < totalBufferSize →
    ∃ p, s.table k = some p ∧ s.byte p = m.data (UInt32.ofNat k)

structure Ranged (m : PruBridge.Ram) : Prop where
  fits : ∀ c, (m.bufferStart c).toNat + (m.channelSize c).toNat ≤ totalBufferSize
  head : ∀ c, m.channelSize c ≠ 0 → m.head c < m.channelSize c
  tail : ∀ c, m.channelSize c ≠ 0 → m.tail c < m.channelSize c
  index : ∀ c, m.indexData c ≤ m.channelSize c

structure Coupled (m : PruBridge.Ram) (s : Ram) : Prop where
  agrees : Agrees m s
  ranged : Ranged m
  table : ∀ k, k < totalBufferSize → s.table k = entry k

theorem positive {a : UInt16} (nonzero : a ≠ 0) : 0 < a.toNat := by
  by_contra none
  exact nonzero (UInt16.toNat_inj.mp (by simpa using none))

theorem nonzero_of_pos {a : UInt16} (pos : 0 < a.toNat) : a ≠ 0 := by
  intro zero
  rw [zero, UInt16.toNat_zero] at pos
  exact Nat.lt_irrefl 0 pos

theorem agree_update {f : Channel → UInt16} {g : Channel → UInt32} {c : Channel} {a : UInt16}
    {b : UInt32} (before : ∀ d, (f d).toNat = (g d).toNat) (here : a.toNat = b.toNat)
    (d : Channel) : (Function.update f c a d).toNat = (Function.update g c b d).toNat := by
  by_cases same : d = c
  · subst same
    rw [Function.update_self, Function.update_self]
    exact here
  · rw [Function.update_of_ne same, Function.update_of_ne same]
    exact before d

section calls
variable {m : PruBridge.Ram} {s : Ram} {c : Channel}

theorem Ranged.written (ranged : Ranged m) (nonzero : m.channelSize c ≠ 0) (b : UInt8) :
    Ranged (Driver.written m c b) := by
  constructor
  · exact ranged.fits
  · exact ranged.head
  · intro d pos
    by_cases same : d = c
    · subst same
      rw [Driver.written_tail]
      exact next_lt (ranged.tail d nonzero)
    · rw [Driver.written_tail_of_ne same]
      exact ranged.tail d pos
  · intro d
    by_cases same : d = c
    · subst same
      exact written_index_le (ranged.index d) b
    · rw [Driver.written_indexData_of_ne same]
      exact ranged.index d

theorem Ranged.consumed (ranged : Ranged m) (some : m.indexData c ≠ 0) :
    Ranged (Driver.consumed m c) := by
  constructor
  · exact ranged.fits
  · intro d nonzero
    by_cases same : d = c
    · subst same
      rw [Driver.consumed_head]
      exact next_lt (ranged.head d nonzero)
    · rw [Driver.consumed_head_of_ne same]
      exact ranged.head d nonzero
  · exact ranged.tail
  · intro d
    by_cases same : d = c
    · subst same
      exact consumed_index_le (ranged.index d) some
    · rw [Driver.consumed_indexData_of_ne same]
      exact ranged.index d

theorem Agrees.size_nonzero (agrees : Agrees m s) (nonzero : m.channelSize c ≠ 0) :
    s.channelSize c ≠ 0 := by
  have pos := toNat_pos nonzero
  rw [← agrees.channelSize c] at pos
  exact nonzero_of_pos pos

/-- The head and the tail move on alike: the sum is an `int` here and a `uint32_t` there. -/
theorem toNat_moved {word size : UInt16} {word' size' : UInt32} (same : word.toNat = word'.toNat)
    (sizes : size.toNat = size'.toNat) (less : word' < size') :
    (UInt16.ofNat ((word.toNat + 1) % size.toNat)).toNat = ((word' + 1) % size').toNat := by
  have next := toNat_next less
  have bound := size.toNat_lt
  have inside := Nat.mod_lt (word.toNat + 1) (sizes ▸ toNat_pos_of_lt less)
  rw [next, UInt16.toNat_ofNat_of_lt' (by change _ < 2 ^ 16; omega), same, sizes]

/-- A write through the table is seen at its cell and at no other. -/
theorem byte_written (coupled : Coupled m s) {k : Nat} (inside : k < totalBufferSize) {p : Pointer}
    (there : entry k = some p) (b : UInt8) (j : Nat) (less : j < totalBufferSize) :
    ∃ q, s.table j = some q ∧ Function.update s.byte p b q =
      Function.update m.data (UInt32.ofNat k) b (UInt32.ofNat j) := by
  obtain ⟨q, here, before⟩ := coupled.agrees.byte j less
  refine ⟨q, here, ?_⟩
  rw [coupled.table j less] at here
  simp only [totalBufferSize] at inside less
  by_cases same : j = k
  · subst same
    rw [there] at here
    cases here
    rw [Function.update_self, Function.update_self]
  · have apart : q ≠ p := by
      intro equal
      subst equal
      exact same (entry_injective here there)
    have apart' : UInt32.ofNat j ≠ UInt32.ofNat k := by
      intro equal
      have values := congrArg UInt32.toNat equal
      rw [UInt32.toNat_ofNat_of_lt' (by change j < 2 ^ 32; omega),
        UInt32.toNat_ofNat_of_lt' (by change k < 2 ^ 32; omega)] at values
      exact same values
    rw [Function.update_of_ne apart, Function.update_of_ne apart', before]

theorem Coupled.write (coupled : Coupled m s) (nonzero : m.channelSize c ≠ 0) (b : UInt8) :
    ∃ s', (writeBuffer c b).run s = .ok ((), s') ∧ Coupled (Driver.written m c b) s' := by
  have agrees := coupled.agrees
  have inRing := coupled.ranged.tail c nonzero
  have less := UInt32.lt_iff_toNat_lt.mp inRing
  have fits := coupled.ranged.fits c
  have start := agrees.bufferStart c
  have tail := agrees.tail c
  let k := (s.bufferStart c).toNat + (s.tail c).toNat
  have inside : k < totalBufferSize := by
    simp only [k]
    omega
  have cell : m.bufferStart c + m.tail c = UInt32.ofNat k := by
    simp only [k, start, tail, UInt32.ofNat_add, UInt32.ofNat_toNat]
  obtain ⟨p, there⟩ := entry_exists inside
  have run := writeBuffer_run s c b inside ((coupled.table k inside).trans there)
    (agrees.size_nonzero nonzero)
  refine ⟨written s c p b, run, ?_, coupled.ranged.written nonzero b, coupled.table⟩
  constructor
  · exact agrees.initCheck
  · exact agrees.channelSize
  · exact agrees.bufferStart
  · exact agrees.head
  · exact agree_update agrees.tail (toNat_moved tail (agrees.channelSize c) inRing)
  · have index := agrees.indexData c
    have size := agrees.channelSize c
    have same : s.indexData c < s.channelSize c ↔ m.indexData c < m.channelSize c := by
      rw [UInt16.lt_iff_toNat_lt, UInt32.lt_iff_toNat_lt, index, size]
    unfold written Driver.written
    simp only [same]
    by_cases room : m.indexData c < m.channelSize c
    · have next := toNat_add_one room
      have counted := UInt32.lt_iff_toNat_lt.mp room
      have bound := (s.channelSize c).toNat_lt
      simp only [if_pos room]
      apply agree_update agrees.indexData
      rw [next, UInt16.toNat_add, UInt16.toNat_one]
      omega
    · simp only [if_neg room]
      exact agrees.indexData
  · intro j short
    have here := byte_written coupled inside there b j short
    rwa [← cell] at here

theorem Coupled.read (coupled : Coupled m s) (nonzero : m.channelSize c ≠ 0) :
    ∃ value m' s', (Driver.readBuffer c).run m = .ok (value, m') ∧
      (readBuffer c).run s = .ok (value, s') ∧ Coupled m' s' ∧
      m'.channelSize = m.channelSize := by
  have agrees := coupled.agrees
  have index := agrees.indexData c
  by_cases none : m.indexData c = 0
  · have none' : s.indexData c = 0 := by
      rw [← UInt16.toNat_inj, index, none]
      rfl
    exact ⟨0, m, s, Driver.readBuffer_run_empty m c none, readBuffer_run_empty s c none',
      coupled, rfl⟩
  · have pos := toNat_pos none
    have some : s.indexData c ≠ 0 := by
      rw [← index] at pos
      exact nonzero_of_pos pos
    have inRing := coupled.ranged.head c nonzero
    have less := UInt32.lt_iff_toNat_lt.mp inRing
    have fits := coupled.ranged.fits c
    have start := agrees.bufferStart c
    have head := agrees.head c
    let k := (s.bufferStart c).toNat + (s.head c).toNat
    have inside : k < totalBufferSize := by
      simp only [k]
      omega
    have cell : m.bufferStart c + m.head c = UInt32.ofNat k := by
      simp only [k, start, head, UInt32.ofNat_add, UInt32.ofNat_toNat]
    obtain ⟨p, there, byte⟩ := agrees.byte k inside
    have run := Driver.readBuffer_run m c nonzero none
    rw [cell, ← byte] at run
    have run' := readBuffer_run s c inside there (agrees.size_nonzero nonzero) some
    refine ⟨s.byte p, _, _, run, run', ⟨?_, coupled.ranged.consumed none, coupled.table⟩, rfl⟩
    have fewer := toNat_sub_one none
    have bound := (s.indexData c).toNat_lt
    constructor
    · exact agrees.initCheck
    · exact agrees.channelSize
    · exact agrees.bufferStart
    · exact agree_update agrees.head (toNat_moved head (agrees.channelSize c) inRing)
    · exact agrees.tail
    · apply agree_update agrees.indexData
      rw [fewer, UInt16.toNat_sub, UInt16.toNat_one]
      omega
    · exact agrees.byte

theorem Coupled.flushLoop (coupled : Coupled m s) (nonzero : m.channelSize c ≠ 0)
    (left i : Nat) (data : Nat → UInt8) :
    ∃ data' m' s', (Driver.flushLoop c left i data).run m = .ok (data', m') ∧
      (flushLoop c left i data).run s = .ok (data', s') ∧ Coupled m' s' ∧
      m'.channelSize = m.channelSize := by
  induction left generalizing m s i data with
  | zero => exact ⟨data, m, s, rfl, rfl, coupled, rfl⟩
  | succ left ih =>
    obtain ⟨value, m₁, s₁, first, first', coupled₁, sizes⟩ := coupled.read nonzero
    obtain ⟨data', m', s', later, later', coupled', sizes'⟩ :=
      ih coupled₁ (by rw [sizes]; exact nonzero) (i + 1) (Function.update data i value)
    refine ⟨data', m', s', ?_, ?_, coupled', sizes'.trans sizes⟩
    · rw [Driver.flushLoop, Prog.run_bind_ok first, later]
    · rw [flushLoop, Prog.run_bind_ok first', later']

theorem Coupled.flush (coupled : Coupled m s) (nonzero : m.channelSize c ≠ 0)
    (data : Nat → UInt8) :
    ∃ data' m' s', (Driver.flushBuffer c data).run m = .ok (data', m') ∧
      (flushBuffer c data).run s = .ok (data', s') ∧ Coupled m' s' ∧
      m'.channelSize = m.channelSize := by
  obtain ⟨data', m', s', run, run', coupled', sizes⟩ :=
    coupled.flushLoop nonzero (m.indexData c).toNat 0 data
  have small := small_index (coupled.ranged.index c) (coupled.ranged.fits c)
  refine ⟨data', m', s', ?_, ?_, coupled', sizes⟩
  · simpa [Driver.flushBuffer, toNat_small_int small] using run
  · simpa [flushBuffer, coupled.agrees.indexData c] using run'

end calls

section init

theorem sum_getD_le (vs : List Nat) (n : Nat) : ∑ i : Fin n, vs.getD i 0 ≤ vs.sum := by
  induction vs generalizing n with
  | nil => simp
  | cons v vs ih =>
    cases n with
    | zero => simp
    | succ n =>
      have rest := ih n
      rw [Fin.sum_univ_succ, List.sum_cons]
      exact Nat.add_le_add_left rest v

theorem sum_sizes_le (vs : List Nat) :
    ∑ c, (Driver.sizesFrom vs 0 (fun _ => 0) c).toNat ≤ vs.sum := by
  have each : ∀ c : Channel, (Driver.sizesFrom vs 0 (fun _ => 0) c).toNat ≤ vs.getD c 0 := by
    intro c
    simp only [Driver.sizesFrom, Nat.zero_le, ↓reduceIte, Nat.sub_zero, List.getD]
    cases vs[c.val]? with
    | none => exact Nat.le_refl 0
    | some v => exact Nat.mod_le v _
  exact Nat.le_trans (Finset.sum_le_sum fun c _ => each c) (sum_getD_le vs 10)

theorem laidOut_ranged {m : PruBridge.Ram} {size : Channel → UInt32}
    (fits : ∑ c, (size c).toNat ≤ totalBufferSize) : Ranged (Driver.laidOut m size) := by
  constructor
  · intro c
    have le := Driver.startOf_add_size_le (fun j => (size j).toNat) c
    simp only [totalBufferSize] at fits ⊢
    change (UInt32.ofNat (Driver.startOf (fun j => (size j).toNat) c)).toNat +
      (size c).toNat ≤ 11500
    rw [UInt32.toNat_ofNat_of_lt' (by change _ < 2 ^ 32; omega)]
    omega
  · exact fun c nonzero => UInt32.lt_iff_toNat_lt.mpr (toNat_pos nonzero)
  · exact fun c nonzero => UInt32.lt_iff_toNat_lt.mpr (toNat_pos nonzero)
  · exact fun c => UInt32.le_iff_toNat_le.mpr (Nat.zero_le _)

theorem init_coupled {m : PruBridge.Ram} {s : Ram} (cleared : Driver.Cleared m)
    (probed : Probed s)
    (bytes : ∀ k p, k < totalBufferSize → s.table k = some p →
      s.byte p = m.data (UInt32.ofNat k))
    (buf : Driver.Text) (few : (Driver.numbers buf).length ≤ 10)
    (sum : (Driver.numbers buf).sum ≤ totalBufferSize) :
    ∃ s', (initChannels buf).run s = .ok (Driver.strlen buf + 1, s') ∧
      Coupled (Driver.laidOut m (Driver.sizesAfter buf m.channelSize)) s' := by
  let size := Driver.sizesAfter buf m.channelSize
  have total : ∑ c, (size c).toNat ≤ totalBufferSize := by
    have le := sum_sizes_le (Driver.numbers buf)
    simp only [size, Driver.sizesAfter, cleared.channelSize]
    omega
  have small : ∀ v ∈ Driver.numbers buf, v < 2 ^ 16 := by
    intro v mem
    have le := List.le_sum_of_mem mem
    simp only [totalBufferSize] at sum
    omega
  have short : 0 + ((List.finRange 10).map fun c => (size c).toNat).sum < 2 ^ 16 := by
    have list : ((List.finRange 10).map fun c => (size c).toNat).sum ≤ totalBufferSize :=
      le_of_eq_of_le (Fin.sum_univ_def _).symm total
    simp only [totalBufferSize] at list
    omega
  obtain ⟨sizes, scan, agree⟩ :=
    @storeEach_run s m.channelSize (Driver.numbers buf) 0 (by omega)
  have scanned := agree (by
    intro c
    rw [(probed.blank c).2.1, cleared.channelSize]
    rfl) small
  obtain ⟨s', layout, same, table, byte, rests, starts⟩ :=
    @layoutLoop_run { s with channelSize := sizes } size (List.finRange 10) 0
  have started := starts m.bufferStart 0 scanned (by
    intro c
    rw [(probed.blank c).2.2, cleared.bufferStart]
    rfl) rfl short
  rw [Driver.startsFrom_all] at started
  refine ⟨{ s' with initCheck := 1 }, ?_, ⟨?_, laidOut_ranged total, ?_⟩⟩
  · rw [initChannels, Legacy.scanNumbers_eq, Prog.run_bind_ok scan, Prog.run_bind_ok layout]
    rfl
  · have zeros := fun c => rests c (Or.inl (List.mem_finRange c))
    constructor
    · rfl
    · exact fun c => (congrArg (fun f => (f c).toNat) same).trans (scanned c)
    · exact started
    · exact fun c => congrArg UInt16.toNat (zeros c).2.1
    · exact fun c => congrArg UInt16.toNat (zeros c).2.2
    · exact fun c => congrArg UInt16.toNat (zeros c).1
    · intro k less
      obtain ⟨p, there⟩ := entry_exists less
      have here := (probed.table k less).trans there
      refine ⟨p, ?_, ?_⟩
      · exact (congrFun table k).trans here
      · exact (congrFun byte p).trans (bytes k p less here)
  · intro k less
    exact (congrFun table k).trans (probed.table k less)

end init

/-- A call of one of the three buffer functions. For a flush, `data` is the memory from the
    caller's pointer on. -/
inductive BufferCall where
  | write (c : Channel) (data : UInt8)
  | read (c : Channel)
  | flush (c : Channel) (data : Nat → UInt8)

inductive BufferReply where
  | void
  | byte (b : UInt8)
  | array (data : Nat → UInt8)

def BufferCall.channel : BufferCall → Channel
  | .write c _ => c
  | .read c => c
  | .flush c _ => c

def BufferCall.array : BufferCall → PruBridge.Code BufferReply
  | .write c data => (fun _ => .void) <$> Driver.writeBuffer c data
  | .read c => .byte <$> Driver.readBuffer c
  | .flush c data => .array <$> Driver.flushBuffer c data

def BufferCall.pointers : BufferCall → Code BufferReply
  | .write c data => (fun _ => .void) <$> writeBuffer c data
  | .read c => .byte <$> readBuffer c
  | .flush c data => .array <$> flushBuffer c data

theorem calls_simulate (size : Channel → UInt32) :
    Simulation.Simulates (fun call m => (BufferCall.array call).run m)
      (fun call s => (BufferCall.pointers call).run s) (fun call => size call.channel ≠ 0)
      (fun m s => Coupled m s ∧ m.channelSize = size) := by
  intro call m s allowed related
  obtain ⟨coupled, sizes⟩ := related
  subst sizes
  cases call with
  | write c b =>
    obtain ⟨s', run, coupled'⟩ := coupled.write allowed b
    have run' := Driver.writeBuffer_run m c b allowed
    exact ⟨.void, _, s', Prog.run_map_ok run', Prog.run_map_ok run, coupled', rfl⟩
  | read c =>
    obtain ⟨value, m', s', run, run', coupled', sizes⟩ := coupled.read allowed
    exact ⟨.byte value, m', s', Prog.run_map_ok run, Prog.run_map_ok run', coupled', sizes⟩
  | flush c data =>
    obtain ⟨data', m', s', run, run', coupled', sizes⟩ := coupled.flush allowed data
    exact ⟨.array data', m', s', Prog.run_map_ok run, Prog.run_map_ok run', coupled', sizes⟩

/-- From `probe` on with equal bytes, an init whose sizes fit and then any calls on channels that
    have a size: both drivers give the same replies and hold the same words and bytes. -/
theorem pointer_driver_agrees (m₀ : PruBridge.Ram) (s₀ : Ram) (probed : Driver.AfterProbe m₀)
    (probed' : AfterProbe s₀)
    (bytes : ∀ k p, k < totalBufferSize → s₀.table k = some p →
      s₀.byte p = m₀.data (UInt32.ofNat k))
    (buf : Driver.Text) (few : (Driver.numbers buf).length ≤ 10)
    (sum : (Driver.numbers buf).sum ≤ totalBufferSize) :
    ∃ count m s, (Driver.initChannels buf).run m₀ = .ok (count, m) ∧
      (initChannels buf).run s₀ = .ok (count, s) ∧ Agrees m s ∧
      ∀ calls : List BufferCall, (∀ call ∈ calls, m.channelSize call.channel ≠ 0) →
        ∃ replies m' s',
          Simulation.run (fun call m => (BufferCall.array call).run m) calls m =
            .ok (replies, m') ∧
          Simulation.run (fun call s => (BufferCall.pointers call).run s) calls s =
            .ok (replies, s') ∧ Agrees m' s' := by
  obtain ⟨s, run, coupled⟩ := init_coupled probed.cleared probed'.probed bytes buf few sum
  refine ⟨_, _, s, Driver.initChannels_run buf m₀ few, run, coupled.agrees, ?_⟩
  intro calls sized
  obtain ⟨replies, m', s', first, second, related, -⟩ :=
    (calls_simulate _).run sized ⟨coupled, rfl⟩
  exact ⟨replies, m', s', first, second, related.agrees⟩

/-- Ten rings of two bytes, over equal bytes of any value. -/
theorem pointer_driver_agrees_pairs : ∃ m₀ s₀, Driver.AfterProbe m₀ ∧ AfterProbe s₀ ∧
    ∃ count m s, (Driver.initChannels pairsText).run m₀ = .ok (count, m) ∧
      (initChannels pairsText).run s₀ = .ok (count, s) ∧ Agrees m s ∧
      ∀ calls : List BufferCall, (∀ call ∈ calls, m.channelSize call.channel ≠ 0) →
        ∃ replies m' s',
          Simulation.run (fun call m => (BufferCall.array call).run m) calls m =
            .ok (replies, m') ∧
          Simulation.run (fun call s => (BufferCall.pointers call).run s) calls s =
            .ok (replies, s') ∧ Agrees m' s' := by
  obtain ⟨m₀, probed⟩ := Driver.exists_afterProbe
  obtain ⟨s₀, run, probed', byte⟩ := probe_run ⟨0, fun _ => 0, fun _ => 0, fun _ => 0, fun _ => 0,
    fun _ => 0, fun _ => none, fun p => m₀.data (UInt32.ofNat p.cell)⟩
  refine ⟨m₀, s₀, probed, ⟨_, run⟩, ?_⟩
  refine pointer_driver_agrees m₀ s₀ probed ⟨_, run⟩ ?_ pairsText (by decide) (by decide)
  intro k p less there
  rw [probed'.table k less] at there
  rw [← (entry_cell there).2]
  exact congrFun byte p

end PruBridge.PointerDriver
