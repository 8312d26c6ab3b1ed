import PruBridge.Extraction

/-!
The legacy driver with pointers (`src/driver/legacy/pru_bridge_pointer.c`). Its control words
are 16 bits wide, and a cell of the ring is reached through a table of pointers into three
pages that are mapped apart. Sums of control words are `int`, so they do not wrap here.
-/
namespace PruBridge.PointerDriver
open AtomicProgram

inductive Page where
  | buffer1
  | buffer2
  | buffer3
  deriving DecidableEq

structure Pointer where
  page : Page
  offset : Nat
  deriving DecidableEq

inductive Cell where
  | initCheck
  | channelSize (i : Channel)
  | indexData (i : Channel)
  | bufferStart (i : Channel)
  | head (i : Channel)
  | tail (i : Channel)
  | table (k : Nat)
  | byte (p : Pointer)
  deriving DecidableEq

/-- An entry of the table is null until `pru_bridge_probe` sets it. -/
abbrev Cell.Val : Cell → Type
  | .table _ => Option Pointer
  | .byte _ => UInt8
  | _ => UInt16

/-- `struct control_channel`, the table `ring.data`, and the bytes behind the pointers. -/
structure Ram where
  initCheck : UInt16
  channelSize : Channel → UInt16
  indexData : Channel → UInt16
  bufferStart : Channel → UInt16
  head : Channel → UInt16
  tail : Channel → UInt16
  table : Nat → Option Pointer
  byte : Pointer → UInt8

@[simp] def Ram.get (s : Ram) : (c : Cell) → c.Val
  | .initCheck => s.initCheck
  | .channelSize i => s.channelSize i
  | .indexData i => s.indexData i
  | .bufferStart i => s.bufferStart i
  | .head i => s.head i
  | .tail i => s.tail i
  | .table k => s.table k
  | .byte p => s.byte p

@[simp] def Ram.set (s : Ram) : (c : Cell) → c.Val → Ram
  | .initCheck, v => { s with initCheck := v }
  | .channelSize i, v => { s with channelSize := Function.update s.channelSize i v }
  | .indexData i, v => { s with indexData := Function.update s.indexData i v }
  | .bufferStart i, v => { s with bufferStart := Function.update s.bufferStart i v }
  | .head i, v => { s with head := Function.update s.head i v }
  | .tail i, v => { s with tail := Function.update s.tail i v }
  | .table k, v => { s with table := Function.update s.table k v }
  | .byte p, v => { s with byte := Function.update s.byte p v }

theorem Ram.get_set_of_ne (s : Ram) (c d : Cell) (v : c.Val) (other : d ≠ c) :
    (s.set c v).get d = s.get d := by
  cases c <;> cases d <;> simp_all [Function.update_of_ne]

instance : Memory Ram Cell Cell.Val := ⟨Ram.get, Ram.set, Ram.get_set_of_ne⟩

@[simp] theorem memory_get (s : Ram) (c : Cell) : Memory.get s c = s.get c := rfl

@[simp] theorem memory_set (s : Ram) (c : Cell) (v : c.Val) : Memory.set s c v = s.set c v := rfl

/-- What ends a run: `%` by zero, a store past `channel_size`, an index past the table, and a
    null pointer in it. -/
inductive Fault where
  | moduloByZero
  | sizeIndex (i : Nat)
  | tableIndex (k : Nat)
  | nullPointer (k : Nat)
  deriving DecidableEq

abbrev Code := Prog Cell Cell.Val Fault

@[simp] def load (c : Cell) : Code c.Val := .load c .ret

@[simp] def store (c : Cell) (v : c.Val) : Code Unit := .store c v (.ret ())

/-- `(word + 1) % size` on `int`, converted to the `uint16_t` that it is stored to. -/
def next (word size : UInt16) : Code UInt16 :=
  if size = 0 then .fault .moduloByZero
  else .ret (UInt16.ofNat ((word.toNat + 1) % size.toNat))

def pointer (k : Nat) : Code Pointer :=
  if k < totalBufferSize then do
    let p ← load (.table k)
    match p with
    | some p => pure p
    | none => .fault (.nullPointer k)
  else
    .fault (.tableIndex k)

def tailCell (c : Channel) : Code Nat := do
  let start ← load (.bufferStart c)
  let tail ← load (.tail c)
  pure (start.toNat + tail.toNat)

def headCell (c : Channel) : Code Nat := do
  let start ← load (.bufferStart c)
  let head ← load (.head c)
  pure (start.toNat + head.toNat)

def advanceTail (c : Channel) : Code Unit := do
  let tail ← load (.tail c)
  let size ← load (.channelSize c)
  let tail' ← next tail size
  store (.tail c) tail'

def advanceHead (c : Channel) : Code Unit := do
  let head ← load (.head c)
  let size ← load (.channelSize c)
  let head' ← next head size
  store (.head c) head'

def countUp (c : Channel) : Code Unit := do
  let index ← load (.indexData c)
  let size ← load (.channelSize c)
  if index < size then do
    let index ← load (.indexData c)
    store (.indexData c) (index + 1)
  else
    pure ()

def printkRing (c : Channel) (cell : Code Nat) : Code Unit := do
  let k ← cell
  let p ← pointer k
  let _ ← load (.byte p)
  let _ ← cell
  let _ ← load (.indexData c)
  pure ()

def writeBuffer (c : Channel) (data : UInt8) : Code Unit := do
  let k ← tailCell c
  let p ← pointer k
  store (.byte p) data
  countUp c
  printkRing c (tailCell c)
  advanceTail c

def readBuffer (c : Channel) : Code UInt8 := do
  let index ← load (.indexData c)
  if index ≠ 0 then do
    let k ← headCell c
    let p ← pointer k
    let value ← load (.byte p)
    let index ← load (.indexData c)
    store (.indexData c) (index - 1)
    printkRing c (headCell c)
    advanceHead c
    pure value
  else
    pure 0

def flushLoop (c : Channel) : (left i : Nat) → (data : Nat → UInt8) → Code (Nat → UInt8)
  | 0, _, data => pure data
  | left + 1, i, data => do
    let value ← readBuffer c
    flushLoop c left (i + 1) (Function.update data i value)

def flushBuffer (c : Channel) (data : Nat → UInt8) : Code (Nat → UInt8) := do
  let index ← load (.indexData c)
  flushLoop c index.toNat 0 data

/-- `control_channel->channel_size[i] = (uint16_t) value;` and the `printk` of it. -/
def storeSize (i : Nat) (value : UInt32) : Code Unit :=
  if h : i < 10 then do
    store (.channelSize ⟨i, h⟩) value.toUInt16
    let _ ← load (.channelSize ⟨i, h⟩)
    pure ()
  else
    .fault (.sizeIndex i)

/-- `for(i=0;i<NUM_CHANNELS;i++)`, with the `int` `temp_index` cut to 16 bits in each store. -/
def layoutLoop : List Channel → (tempIndex : Nat) → Code Unit
  | [], _ => pure ()
  | i :: rest, tempIndex => do
    store (.bufferStart i) (UInt16.ofNat tempIndex)
    let size ← load (.channelSize i)
    let _ ← load (.bufferStart i)
    store (.indexData i) 0
    store (.head i) 0
    store (.tail i) 0
    layoutLoop rest (tempIndex + size.toNat)

def initChannels (buf : Driver.Text) : Code Nat := do
  Legacy.scanNumbers storeSize buf 0
  layoutLoop (List.finRange 10) 0
  store .initCheck 1
  let _ ← load .initCheck
  pure (Driver.strlen buf + 1)

/-- The branches of the loop in `pru_bridge_probe`: what it stores to `ring.data[i]`. -/
def entry (i : Nat) : Option Pointer :=
  if i < pageSize then some ⟨.buffer1, i⟩
  else if pageSize ≤ i ∧ i < pageSize * 2 then some ⟨.buffer2, i % pageSize⟩
  else if pageSize * 2 ≤ i ∧ i < pageSize * 3 then some ⟨.buffer3, i % pageSize⟩
  else none

/-- `for(i=0;i<TOTAL_BUFFER_SIZE;i++)` of it, with `left` rounds to go. -/
def fillTable : (left : Nat) → Code Unit
  | 0 => pure ()
  | left + 1 => do
    match entry (totalBufferSize - (left + 1)) with
    | some p => store (.table (totalBufferSize - (left + 1))) (some p)
    | none => pure ()
    let _ ← load (.table (totalBufferSize - (left + 1)))
    fillTable left

def clearLoop : List Channel → Code Unit
  | [] => pure ()
  | i :: rest => do
    store (.indexData i) 0
    store (.channelSize i) 0
    store (.bufferStart i) 0
    store (.head i) 0
    store (.tail i) 0
    clearLoop rest

/-- `pru_bridge_probe`. The bytes in the three pages stay as it finds them. -/
def probe : Code Unit := do
  fillTable totalBufferSize
  store .initCheck 0
  clearLoop (List.finRange 10)

def written (s : Ram) (c : Channel) (p : Pointer) (b : UInt8) : Ram :=
  { s with
    byte := Function.update s.byte p b
    indexData := if s.indexData c < s.channelSize c then
      Function.update s.indexData c (s.indexData c + 1) else s.indexData
    tail := Function.update s.tail c
      (UInt16.ofNat (((s.tail c).toNat + 1) % (s.channelSize c).toNat)) }

def consumed (s : Ram) (c : Channel) : Ram :=
  { s with
    indexData := Function.update s.indexData c (s.indexData c - 1)
    head := Function.update s.head c
      (UInt16.ofNat (((s.head c).toNat + 1) % (s.channelSize c).toNat)) }

theorem writeBuffer_run (s : Ram) (c : Channel) (b : UInt8) {p : Pointer}
    (inside : (s.bufferStart c).toNat + (s.tail c).toNat < totalBufferSize)
    (there : s.table ((s.bufferStart c).toNat + (s.tail c).toNat) = some p)
    (pos : s.channelSize c ≠ 0) : (writeBuffer c b).run s = .ok ((), written s c p b) := by
  by_cases room : s.indexData c < s.channelSize c
  · simp [writeBuffer, tailCell, pointer, inside, there, countUp, printkRing, advanceTail, next,
      written, room, pos]
  · simp [writeBuffer, tailCell, pointer, inside, there, countUp, printkRing, advanceTail, next,
      written, room, pos]

theorem readBuffer_run (s : Ram) (c : Channel) {p : Pointer}
    (inside : (s.bufferStart c).toNat + (s.head c).toNat < totalBufferSize)
    (there : s.table ((s.bufferStart c).toNat + (s.head c).toNat) = some p)
    (pos : s.channelSize c ≠ 0) (some : s.indexData c ≠ 0) :
    (readBuffer c).run s = .ok (s.byte p, consumed s c) := by
  simp [readBuffer, headCell, pointer, inside, there, printkRing, advanceHead, next, consumed,
    some, pos]

theorem readBuffer_run_empty (s : Ram) (c : Channel) (none : s.indexData c = 0) :
    (readBuffer c).run s = .ok (0, s) := by
  simp [readBuffer, none]

theorem entry_exists {k : Nat} (less : k < totalBufferSize) : ∃ p, entry k = some p := by
  simp only [totalBufferSize] at less
  unfold entry pageSize
  split
  · exact ⟨_, rfl⟩
  · split
    · exact ⟨_, rfl⟩
    · split
      · exact ⟨_, rfl⟩
      · omega

def Pointer.cell (p : Pointer) : Nat :=
  match p.page with
  | .buffer1 => p.offset
  | .buffer2 => pageSize + p.offset
  | .buffer3 => pageSize * 2 + p.offset

theorem entry_cell {k : Nat} {p : Pointer} (here : entry k = some p) :
    p.offset < pageSize ∧ p.cell = k := by
  unfold entry at here
  split at here
  · cases here
    exact ⟨by assumption, rfl⟩
  · split at here
    · cases here
      simp only [Pointer.cell, pageSize] at *
      omega
    · split at here
      · cases here
        simp only [Pointer.cell, pageSize] at *
        omega
      · cases here

theorem entry_injective {j k : Nat} {p : Pointer} (left : entry j = some p)
    (right : entry k = some p) : j = k :=
  (entry_cell left).2.symm.trans (entry_cell right).2

theorem fillTable_run (left : Nat) (le : left ≤ totalBufferSize) (s : Ram) :
    ∃ table, (fillTable left).run s = .ok ((), { s with table := table }) ∧
      (∀ k, totalBufferSize - left ≤ k → k < totalBufferSize → table k = entry k) ∧
      ∀ k, k < totalBufferSize - left → table k = s.table k := by
  induction left generalizing s with
  | zero =>
    refine ⟨s.table, rfl, ?_, fun _ _ => rfl⟩
    intro k low high
    omega
  | succ left ih =>
    obtain ⟨p, here⟩ := @entry_exists (totalBufferSize - (left + 1)) (by omega)
    obtain ⟨table, run, filled, kept⟩ :=
      ih (by omega) (s.set (.table (totalBufferSize - (left + 1))) (some p))
    refine ⟨table, ?_, ?_, ?_⟩
    · simpa [fillTable, here] using run
    · intro k low high
      by_cases first : k = totalBufferSize - (left + 1)
      · rw [kept k (by omega), first, here]
        exact Function.update_self _ _ _
      · exact filled k (by omega) high
    · intro k low
      rw [kept k (by omega)]
      exact Function.update_of_ne (by omega) _ _

def Rests (s : Ram) (c : Channel) : Prop := s.indexData c = 0 ∧ s.head c = 0 ∧ s.tail c = 0

def Blank (s : Ram) (c : Channel) : Prop :=
  Rests s c ∧ s.channelSize c = 0 ∧ s.bufferStart c = 0

theorem clearLoop_run (is : List Channel) (s : Ram) :
    ∃ s', (clearLoop is).run s = .ok ((), s') ∧ s'.initCheck = s.initCheck ∧
      s'.table = s.table ∧ s'.byte = s.byte ∧ ∀ c, c ∈ is ∨ Blank s c → Blank s' c := by
  induction is generalizing s with
  | nil =>
    refine ⟨s, rfl, rfl, rfl, rfl, ?_⟩
    intro c blank
    rcases blank with none | blank
    · cases none
    · exact blank
  | cons i is ih =>
    let first : Ram := { s with
      indexData := Function.update s.indexData i 0
      channelSize := Function.update s.channelSize i 0
      bufferStart := Function.update s.bufferStart i 0
      head := Function.update s.head i 0
      tail := Function.update s.tail i 0 }
    obtain ⟨s', run, flag, table, byte, blank⟩ := ih first
    refine ⟨s', by simpa [clearLoop, first] using run, flag, table, byte, ?_⟩
    intro c some
    apply blank c
    by_cases same : c = i
    · subst same
      right
      simp [Blank, Rests, first]
    · rcases some with mem | before
      · exact Or.inl (List.mem_of_ne_of_mem same mem)
      · right
        simpa [Blank, Rests, first, same] using before

structure Probed (s : Ram) : Prop where
  initCheck : s.initCheck = 0
  blank : ∀ c, Blank s c
  table : ∀ k, k < totalBufferSize → s.table k = entry k

theorem probe_run (s₀ : Ram) :
    ∃ s, probe.run s₀ = .ok ((), s) ∧ Probed s ∧ s.byte = s₀.byte := by
  obtain ⟨table, fill, filled, -⟩ := fillTable_run totalBufferSize (Nat.le_refl _) s₀
  let flagged : Ram := { s₀ with table := table, initCheck := 0 }
  have flag : (store .initCheck 0).run { s₀ with table := table } = .ok ((), flagged) := rfl
  obtain ⟨s, clear, initCheck, same, byte, blank⟩ := clearLoop_run (List.finRange 10) flagged
  refine ⟨s, ?_, ⟨initCheck, ?_, ?_⟩, byte⟩
  · rw [probe, Prog.run_bind_ok fill, Prog.run_bind_ok flag, clear]
  · exact fun c => blank c (Or.inl (List.mem_finRange c))
  · intro k less
    rw [same]
    exact filled k (by omega) less

def AfterProbe (s : Ram) : Prop := ∃ s₀, probe.run s₀ = .ok ((), s)

theorem AfterProbe.probed {s : Ram} (after : AfterProbe s) : Probed s := by
  obtain ⟨s₀, run⟩ := after
  obtain ⟨s', again, probed, -⟩ := probe_run s₀
  rw [run] at again
  cases again
  exact probed

section init
variable {s : Ram} {size : Channel → UInt32}

/-- The sizes of the text, cut to 16 bits. Where none is cut, they are those of the other
    driver. -/
theorem storeEach_run (vs : List Nat) (i : Nat) (few : i + vs.length ≤ 10) :
    ∃ sizes, (Legacy.storeEach storeSize vs i).run s =
        .ok ((), { s with channelSize := sizes }) ∧
      ((∀ c, (s.channelSize c).toNat = (size c).toNat) → (∀ v ∈ vs, v < 2 ^ 16) →
        ∀ c, (sizes c).toNat = (Driver.sizesFrom vs i size c).toNat) := by
  induction vs generalizing i s size with
  | nil =>
    refine ⟨s.channelSize, rfl, ?_⟩
    intro same _ c
    simp [Driver.sizesFrom, same]
  | cons v vs ih =>
    rw [List.length_cons] at few
    have bound : i < 10 := by omega
    let first : Ram := { s with
      channelSize := Function.update s.channelSize ⟨i, bound⟩ (UInt32.ofNat v).toUInt16 }
    obtain ⟨sizes, run, agree⟩ := @ih first
      (Function.update size ⟨i, bound⟩ (UInt32.ofNat v)) (i + 1) (by omega)
    have stored : (storeSize i (UInt32.ofNat v)).run s = .ok ((), first) := by
      simp [storeSize, bound, first]
    refine ⟨sizes, ?_, ?_⟩
    · rw [Legacy.storeEach, Prog.run_bind_ok stored, run]
    · intro same small c
      rw [← Driver.sizesFrom_cons v vs bound size]
      apply agree
      · intro d
        by_cases here : d = ⟨i, bound⟩
        · subst here
          have less := small v List.mem_cons_self
          simp only [first, Function.update_self, UInt32.toNat_toUInt16, UInt32.toNat_ofNat']
          omega
        · simp only [first, Function.update_of_ne here]
          exact same d
      · exact fun w mem => small w (List.mem_cons_of_mem v mem)

/-- The starts, as far as `temp_index` stays below 16 bits, and the other words at zero. -/
theorem layoutLoop_run (is : List Channel) (tempIndex : Nat) :
    ∃ s', (layoutLoop is tempIndex).run s = .ok ((), s') ∧ s'.channelSize = s.channelSize ∧
      s'.table = s.table ∧ s'.byte = s.byte ∧ (∀ c, c ∈ is ∨ Rests s c → Rests s' c) ∧
      ∀ (start : Channel → UInt32) (temp : UInt32),
        (∀ c, (s.channelSize c).toNat = (size c).toNat) →
        (∀ c, (s.bufferStart c).toNat = (start c).toNat) → temp.toNat = tempIndex →
        tempIndex + (is.map fun c => (size c).toNat).sum < 2 ^ 16 →
        ∀ c, (s'.bufferStart c).toNat = (Driver.startsFrom size is temp start c).toNat := by
  induction is generalizing tempIndex s with
  | nil =>
    refine ⟨s, rfl, rfl, rfl, rfl, ?_, fun start temp _ same _ _ => same⟩
    intro c rests
    rcases rests with none | rests
    · cases none
    · exact rests
  | cons i is ih =>
    let first : Ram := { s with
      bufferStart := Function.update s.bufferStart i (UInt16.ofNat tempIndex)
      indexData := Function.update s.indexData i 0
      head := Function.update s.head i 0
      tail := Function.update s.tail i 0 }
    obtain ⟨s', run, sizes, table, byte, rests, starts⟩ :=
      @ih first (tempIndex + (s.channelSize i).toNat)
    refine ⟨s', by simpa [layoutLoop, first] using run, sizes, table, byte, ?_, ?_⟩
    · intro c some
      apply rests c
      by_cases same : c = i
      · subst same
        right
        simp [Rests, first]
      · rcases some with mem | before
        · exact Or.inl (List.mem_of_ne_of_mem same mem)
        · right
          simpa [Rests, first, same] using before
    · intro start temp same before value short
      rw [List.map_cons, List.sum_cons] at short
      have size_i := same i
      apply starts (Function.update start i temp) (temp + size i) same
      · intro c
        by_cases here : c = i
        · subst here
          simp only [first, Function.update_self, UInt16.toNat_ofNat']
          omega
        · simp only [first, Function.update_of_ne here]
          exact before c
      · rw [UInt32.toNat_add]
        omega
      · omega

end init

end PruBridge.PointerDriver
