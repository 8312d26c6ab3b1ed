import PruBridge.BulkText
import PruBridge.PointerAgreement

/-!
The same two files of the driver with pointers. Its states keep the unread cells of every
channel inside the table, since each of them was written through it.
-/
namespace PruBridge.PointerDriver
open AtomicProgram MachineWords

def byteAt (s : Ram) (c : Channel) (j : Nat) : UInt8 :=
  ((s.table ((s.bufferStart c).toNat +
    ((s.head c).toNat + j) % (s.channelSize c).toNat)).map s.byte).getD 0

def unread (s : Ram) (c : Channel) : List UInt8 :=
  (List.range (s.indexData c).toNat).map (byteAt s c)

/-- The driver after an init over the table of `probe`: writes on channels that are not full,
    reads and emptied channels. -/
inductive Reached : Ram → Prop where
  | init {s₀ s : Ram} {buf : Driver.Text} {count : Nat}
      (table : ∀ k, k < totalBufferSize → s₀.table k = entry k)
      (run : (initChannels buf).run s₀ = .ok (count, s)) : Reached s
  | write {s s' : Ram} {c : Channel} {b : UInt8} (before : Reached s)
      (room : s.indexData c < s.channelSize c)
      (run : (writeBuffer c b).run s = .ok ((), s')) : Reached s'
  | read {s s' : Ram} {c : Channel} {value : UInt8} (before : Reached s)
      (run : (readBuffer c).run s = .ok (value, s')) : Reached s'
  | flush {s s' : Ram} {c : Channel} {data data' : Nat → UInt8} (before : Reached s)
      (run : (flushBuffer c data).run s = .ok (data', s')) : Reached s'

/-- The words of one channel: its ring is filled from the head up to the tail, and the cells in
    between are in the table. -/
structure Steady (s : Ram) (c : Channel) : Prop where
  index : (s.indexData c).toNat ≤ (s.channelSize c).toNat
  head : s.channelSize c ≠ 0 → (s.head c).toNat < (s.channelSize c).toNat
  tail : s.channelSize c ≠ 0 → (s.tail c).toNat =
    ((s.head c).toNat + (s.indexData c).toNat) % (s.channelSize c).toNat
  inside : ∀ j, j < (s.indexData c).toNat → (s.bufferStart c).toNat +
    ((s.head c).toNat + j) % (s.channelSize c).toNat < totalBufferSize

section words
variable {s : Ram} {c : Channel}

theorem size_of_room (room : s.indexData c < s.channelSize c) : s.channelSize c ≠ 0 :=
  nonzero_of_pos (Nat.lt_of_le_of_lt (Nat.zero_le _) (UInt16.lt_iff_toNat_lt.mp room))

theorem Steady.sized (steady : Steady s c) (some : s.indexData c ≠ 0) : s.channelSize c ≠ 0 :=
  nonzero_of_pos (Nat.lt_of_lt_of_le (positive some) steady.index)

theorem toNat_mod (k : Nat) (nonzero : s.channelSize c ≠ 0) :
    (UInt16.ofNat (k % (s.channelSize c).toNat)).toNat = k % (s.channelSize c).toNat := by
  have less := Nat.mod_lt k (positive nonzero)
  have bound := (s.channelSize c).toNat_lt
  exact UInt16.toNat_ofNat_of_lt' (by change _ < 2 ^ 16; omega)

theorem Rests.steady (rests : Rests s c) : Steady s c := by
  obtain ⟨index, head, tail⟩ := rests
  constructor
  · rw [index]
    exact Nat.zero_le _
  · intro nonzero
    rw [head]
    exact positive nonzero
  · intro _
    rw [index, head, tail]
    exact (Nat.zero_mod _).symm
  · intro j less
    rw [index] at less
    exact absurd less (Nat.not_lt_zero j)

theorem Steady.after_write (steady : Steady s c) (room : s.indexData c < s.channelSize c)
    (inside : (s.bufferStart c).toNat + (s.tail c).toNat < totalBufferSize) (p : Pointer)
    (b : UInt8) : Steady (written s c p b) c := by
  have less := UInt16.lt_iff_toNat_lt.mp room
  have bound := (s.channelSize c).toNat_lt
  have nonzero := size_of_room room
  have tail := steady.tail nonzero
  have count : ((written s c p b).indexData c).toNat = (s.indexData c).toNat + 1 := by
    unfold written
    simp only [if_pos room, Function.update_self]
    rw [UInt16.toNat_add, UInt16.toNat_one]
    omega
  constructor
  · rw [count]
    exact less
  · exact steady.head
  · intro _
    have moved : ((written s c p b).tail c).toNat =
        ((s.tail c).toNat + 1) % (s.channelSize c).toNat :=
      (congrArg UInt16.toNat (Function.update_self c _ _)).trans (toNat_mod _ nonzero)
    rw [moved, count, tail, Nat.mod_add_mod]
    rfl
  · intro j before
    rw [count] at before
    by_cases last : j = (s.indexData c).toNat
    · subst last
      rw [tail] at inside
      exact inside
    · exact steady.inside j (by omega)

theorem Steady.after_read (steady : Steady s c) (some : s.indexData c ≠ 0) :
    Steady (consumed s c) c ∧
      ((consumed s c).indexData c).toNat = (s.indexData c).toNat - 1 ∧
      ∀ j, byteAt (consumed s c) c j = byteAt s c (1 + j) := by
  have pos := positive some
  have index := steady.index
  have bound := (s.indexData c).toNat_lt
  have nonzero := steady.sized some
  have tail := steady.tail nonzero
  have count : ((consumed s c).indexData c).toNat = (s.indexData c).toNat - 1 := by
    unfold consumed
    simp only [Function.update_self]
    rw [UInt16.toNat_sub, UInt16.toNat_one]
    omega
  have moved : ((consumed s c).head c).toNat =
      ((s.head c).toNat + 1) % (s.channelSize c).toNat :=
    (congrArg UInt16.toNat (Function.update_self c _ _)).trans (toNat_mod _ nonzero)
  have place : ∀ j, (((consumed s c).head c).toNat + j) % (s.channelSize c).toNat =
      ((s.head c).toNat + (1 + j)) % (s.channelSize c).toNat := by
    intro j
    rw [moved, Nat.mod_add_mod, Nat.add_assoc]
  refine ⟨⟨?_, ?_, ?_, ?_⟩, count, ?_⟩
  · rw [count]
    change _ ≤ (s.channelSize c).toNat
    omega
  · intro _
    rw [moved]
    exact Nat.mod_lt _ (positive nonzero)
  · intro _
    have sum : 1 + ((s.indexData c).toNat - 1) = (s.indexData c).toNat := by omega
    rw [count]
    change (s.tail c).toNat = (((consumed s c).head c).toNat + _) % (s.channelSize c).toNat
    rw [place, sum, tail]
  · intro j before
    rw [count] at before
    change (s.bufferStart c).toNat +
      (((consumed s c).head c).toNat + j) % (s.channelSize c).toNat < totalBufferSize
    rw [place]
    exact steady.inside (1 + j) (by omega)
  · intro j
    unfold byteAt
    change ((s.table ((s.bufferStart c).toNat +
      (((consumed s c).head c).toNat + j) % (s.channelSize c).toNat)).map s.byte).getD 0 = _
    rw [place]

theorem Steady.congr {s' : Ram} {d : Channel} (steady : Steady s d)
    (size : s'.channelSize d = s.channelSize d) (start : s'.bufferStart d = s.bufferStart d)
    (index : s'.indexData d = s.indexData d) (head : s'.head d = s.head d)
    (tail : s'.tail d = s.tail d) : Steady s' d := by
  constructor
  · rw [index, size]
    exact steady.index
  · rw [head, size]
    exact steady.head
  · rw [tail, head, index, size]
    exact steady.tail
  · rw [start, head, index, size]
    exact steady.inside

structure Kept (s : Ram) : Prop where
  table : ∀ k, k < totalBufferSize → s.table k = entry k
  steady : ∀ c, Steady s c

theorem write_inside {b : UInt8} {s' : Ram} (run : (writeBuffer c b).run s = .ok ((), s')) :
    (s.bufferStart c).toNat + (s.tail c).toNat < totalBufferSize := by
  by_contra outside
  simp [writeBuffer, tailCell, pointer, outside] at run

theorem Kept.write (kept : Kept s) (room : s.indexData c < s.channelSize c) {b : UInt8}
    {s' : Ram} (run : (writeBuffer c b).run s = .ok ((), s')) : Kept s' := by
  have inside := write_inside run
  have nonzero := size_of_room room
  obtain ⟨p, there⟩ := entry_exists inside
  rw [writeBuffer_run s c b inside ((kept.table _ inside).trans there) nonzero] at run
  cases run
  refine ⟨kept.table, ?_⟩
  intro d
  by_cases same : d = c
  · subst same
    exact (kept.steady d).after_write room inside p b
  · have index : (written s c p b).indexData d = s.indexData d := by
      unfold written
      simp only [if_pos room]
      exact Function.update_of_ne same _ _
    exact (kept.steady d).congr rfl rfl index rfl (Function.update_of_ne same _ _)

theorem Kept.read_run (kept : Kept s) (some : s.indexData c ≠ 0) :
    (readBuffer c).run s = .ok (byteAt s c 0, consumed s c) ∧ Kept (consumed s c) := by
  have steady := kept.steady c
  have nonzero := steady.sized some
  have place : ((s.head c).toNat + 0) % (s.channelSize c).toNat = (s.head c).toNat :=
    Nat.mod_eq_of_lt (steady.head nonzero)
  have inside := steady.inside 0 (positive some)
  rw [place] at inside
  obtain ⟨p, there⟩ := entry_exists inside
  have here := (kept.table _ inside).trans there
  have byte : byteAt s c 0 = s.byte p := by
    unfold byteAt
    rw [place, here]
    rfl
  rw [readBuffer_run s c inside here nonzero some, byte]
  refine ⟨rfl, kept.table, ?_⟩
  intro d
  by_cases same : d = c
  · subst same
    exact (steady.after_read some).1
  · exact (kept.steady d).congr rfl rfl (Function.update_of_ne same _ _)
      (Function.update_of_ne same _ _) rfl

theorem Kept.read (kept : Kept s) {value : UInt8} {s' : Ram}
    (run : (readBuffer c).run s = .ok (value, s')) : Kept s' := by
  by_cases none : s.indexData c = 0
  · rw [readBuffer_run_empty s c none] at run
    cases run
    exact kept
  · obtain ⟨read, next⟩ := kept.read_run none
    rw [read] at run
    cases run
    exact next

theorem Kept.flushLoop_run (kept : Kept s) (left i : Nat) (enough : left ≤ (s.indexData c).toNat)
    (data : Nat → UInt8) : ∃ s', (flushLoop c left i data).run s =
      .ok (filledWith (byteAt s c) left i data, s') ∧ Kept s' := by
  induction left generalizing s i data with
  | zero =>
    rw [filledWith_zero]
    exact ⟨s, rfl, kept⟩
  | succ left ih =>
    have some : s.indexData c ≠ 0 := nonzero_of_pos (by omega)
    obtain ⟨read, next⟩ := kept.read_run some
    obtain ⟨-, count, moved⟩ := (kept.steady c).after_read some
    obtain ⟨s', later, kept'⟩ :=
      ih next (i + 1) (by omega) (Function.update data i (byteAt s c 0))
    rw [filledWith_succ moved] at later
    refine ⟨s', ?_, kept'⟩
    rw [flushLoop, Prog.run_bind_ok read, later]

theorem Kept.flush_run (kept : Kept s) (c : Channel) (data : Nat → UInt8) :
    ∃ s', (flushBuffer c data).run s =
      .ok (filledWith (byteAt s c) (s.indexData c).toNat 0 data, s') ∧ Kept s' :=
  kept.flushLoop_run (s.indexData c).toNat 0 (Nat.le_refl _) data

theorem storeEach_spares (vs : List Nat) (i : Nat) : (Legacy.storeEach storeSize vs i).Only
    fun a => ∀ k v, a ≠ .store (.table k) v := by
  induction vs generalizing i with
  | nil => trivial
  | cons v vs ih =>
    unfold Legacy.storeEach storeSize
    split
    · refine ⟨?_, ?_, fun _ => ih (i + 1)⟩
      · intro k v same
        cases same
      · intro k v same
        cases same
    · trivial

theorem init_kept {s₀ : Ram} (table : ∀ k, k < totalBufferSize → s₀.table k = entry k)
    {buf : Driver.Text} {count : Nat} (run : (initChannels buf).run s₀ = .ok (count, s)) :
    Kept s := by
  rw [initChannels, Legacy.scanNumbers_eq] at run
  obtain ⟨_, s₁, scan, run⟩ := Prog.exists_of_run_bind run
  obtain ⟨s₂, layout, -, sameTable, -, rests, -⟩ :=
    @layoutLoop_run s₁ (fun _ => 0) (List.finRange 10) 0
  rw [Prog.run_bind_ok layout] at run
  cases run
  constructor
  · intro k less
    have kept := (storeEach_spares _ 0).run_get (d := .table k) (fun v may => may k v rfl) scan
    exact (congrFun sameTable k).trans (kept.trans (table k less))
  · intro c
    exact (rests c (Or.inl (List.mem_finRange c))).steady.congr rfl rfl rfl rfl rfl

theorem Reached.kept (reached : Reached s) : Kept s := by
  induction reached with
  | init table run => exact init_kept table run
  | write before room run ih => exact ih.write room run
  | read before run ih => exact ih.read run
  | flush before run ih =>
    rename_i s₁ s' c data data'
    obtain ⟨s₂, flushed, kept⟩ := ih.flush_run c data
    rw [flushed] at run
    cases run
    exact kept

theorem pointers_deliver_iff (kept : Kept s) (short : (unread s c).length + 1 < pageSize)
    (behind : Nat → UInt8) : Delivers (bulkRead c) s behind (unread s c) ↔
      Printable (unread s c) (s.channelSize c).toNat behind := by
  unfold unread at short ⊢
  rw [List.length_map, List.length_range] at short
  apply delivers_iff (kept.steady c).index short
  intro array
  obtain ⟨s', flush, -⟩ :=
    kept.flush_run c (stackOf (s.channelSize c).toNat array behind)
  have size : (load (.channelSize c)).run s = .ok (s.channelSize c, s) := rfl
  refine ⟨s', ?_⟩
  rw [bulkRead, Prog.run_bind_ok size, Prog.run_bind_ok flush]
  rfl

end words

section coupled
variable {m : PruBridge.Ram} {s : Ram} {c : Channel}

theorem Coupled.same_unread (coupled : Coupled m s) (nonzero : m.channelSize c ≠ 0) :
    unread s c = PruBridge.unread m c := by
  have agrees := coupled.agrees
  have fits := coupled.ranged.fits c
  unfold unread PruBridge.unread unreadCells
  rw [agrees.indexData c, List.map_map]
  apply List.map_congr_left
  intro j _
  have less := Nat.mod_lt ((m.head c).toNat + j) (toNat_pos nonzero)
  obtain ⟨p, there, byte⟩ := agrees.byte
    ((m.bufferStart c).toNat + ((m.head c).toNat + j) % (m.channelSize c).toNat) (by omega)
  unfold byteAt
  rw [agrees.bufferStart c, agrees.head c, agrees.channelSize c, there, Option.map_some,
    Option.getD_some, byte, UInt32.ofNat_add, UInt32.ofNat_toNat]
  rfl

theorem Coupled.write_reached (coupled : Coupled m s) (reached : Reached s)
    (room : m.indexData c < m.channelSize c) (b : UInt8) :
    ∃ s', Reached s' ∧ Coupled (Driver.written m c b) s' := by
  have room' : s.indexData c < s.channelSize c := by
    rw [UInt16.lt_iff_toNat_lt, coupled.agrees.indexData c, coupled.agrees.channelSize c]
    exact UInt32.lt_iff_toNat_lt.mp room
  obtain ⟨s', run, coupled'⟩ := coupled.write (ne_zero_of_lt room) b
  exact ⟨s', reached.write room' run, coupled'⟩

theorem pairs_coupled : ∃ s, Reached s ∧ Coupled pairsRam s := by
  obtain ⟨s₀, -, probed, byte⟩ := probe_run ⟨0, fun _ => 0, fun _ => 0, fun _ => 0, fun _ => 0,
    fun _ => 0, fun _ => none, fun _ => 0⟩
  have cleared : Driver.Cleared zeroRam := ⟨rfl, rfl, rfl, rfl, rfl, rfl⟩
  have bytes : ∀ k p, k < totalBufferSize → s₀.table k = some p →
      s₀.byte p = zeroRam.data (UInt32.ofNat k) := fun _ p _ _ => congrFun byte p
  obtain ⟨s, run, coupled⟩ := init_coupled cleared probed bytes pairsText (by decide) (by decide)
  rw [pairs_sizes] at coupled
  exact ⟨s, .init probed.table run, coupled⟩

end coupled

end PruBridge.PointerDriver

namespace PruBridge
open AtomicProgram

/-- In both legacy drivers and for both files: of a content that fits the page, the handler puts
    out just that and a newline, whatever its array holds, exactly when the content is printable
    on its stack. The handlers of the driver with the array stay in `ring->data`; those of the
    driver with pointers would fault outside their table. -/
theorem bulk_text_iff (behind : Nat → UInt8) :
    (∀ m, Legacy.Reached m →
      (∀ array, Driver.InBounds (Legacy.ch9Read array behind) m ∧
        Driver.InBounds (Legacy.ch10Read array behind) m) ∧
      ((unread m 8).length + 1 < pageSize → (Delivers Legacy.ch9Read m behind (unread m 8) ↔
        Printable (unread m 8) (m.channelSize 8).toNat behind)) ∧
      ((unread m 9).length + 1 < pageSize → (Delivers Legacy.ch10Read m behind (unread m 9) ↔
        Printable (unread m 9) (m.channelSize 9).toNat behind))) ∧
    ∀ s, PointerDriver.Reached s →
      ((PointerDriver.unread s 8).length + 1 < pageSize →
        (Delivers PointerDriver.ch9Read s behind (PointerDriver.unread s 8) ↔
          Printable (PointerDriver.unread s 8) (s.channelSize 8).toNat behind)) ∧
      ((PointerDriver.unread s 9).length + 1 < pageSize →
        (Delivers PointerDriver.ch10Read s behind (PointerDriver.unread s 9) ↔
          Printable (PointerDriver.unread s 9) (s.channelSize 9).toNat behind)) := by
  constructor
  · intro m reached
    have ninth := reached.holding 8
    have tenth := reached.holding 9
    refine ⟨?_, ?_, ?_⟩
    · intro array
      exact ⟨bulkRead_inBounds ninth array behind, bulkRead_inBounds tenth array behind⟩
    · exact fun short => array_delivers_iff ninth short behind
    · exact fun short => array_delivers_iff tenth short behind
  · intro s reached
    exact ⟨fun short => PointerDriver.pointers_deliver_iff reached.kept short behind,
      fun short => PointerDriver.pointers_deliver_iff reached.kept short behind⟩

def twoBytes (a b : UInt8) : Ram := Driver.written (Driver.written pairsRam 8 a) 8 b

theorem oneByte_reached (a : UInt8) : Legacy.Reached (Driver.written pairsRam 8 a) := by
  have room : pairsRam.indexData 8 < pairsRam.channelSize 8 := by decide
  have place : pairsRam.bufferStart 8 + pairsRam.tail 8 = 16 := rfl
  apply (Legacy.Reached.init pairsRam_left.init).write room
  rw [place]
  decide

theorem twoBytes_reached (a b : UInt8) : Legacy.Reached (twoBytes a b) := by
  have index : (Driver.written pairsRam 8 a).indexData 8 = 1 := rfl
  have size : (Driver.written pairsRam 8 a).channelSize 8 = 2 := rfl
  have place : (Driver.written pairsRam 8 a).bufferStart 8 +
      (Driver.written pairsRam 8 a).tail 8 = 17 := rfl
  apply (oneByte_reached a).write
  · rw [index, size]
    decide
  · rw [place]
    decide

theorem twoBytes_coupled (a b : UInt8) :
    ∃ s, PointerDriver.Reached s ∧ PointerDriver.Coupled (twoBytes a b) s := by
  obtain ⟨s₀, reached₀, coupled₀⟩ := PointerDriver.pairs_coupled
  have room₀ : pairsRam.indexData 8 < pairsRam.channelSize 8 := by decide
  obtain ⟨s₁, reached₁, coupled₁⟩ := coupled₀.write_reached reached₀ room₀ a
  have room₁ : (Driver.written pairsRam 8 a).indexData 8 < pairsRam.channelSize 8 := by
    have index : (Driver.written pairsRam 8 a).indexData 8 = 1 := rfl
    rw [index]
    decide
  exact coupled₁.write_reached reached₁ room₁ b

/-- Two bytes in a full channel, in both drivers. -/
theorem full_channel_delivered :
    (Legacy.Reached (twoBytes 65 66) ∧
      Delivers Legacy.ch9Read (twoBytes 65 66) (fun _ => 0) [65, 66]) ∧
    ∃ s, PointerDriver.Reached s ∧ Delivers PointerDriver.ch9Read s (fun _ => 0) [65, 66] := by
  have reached := twoBytes_reached 65 66
  have content : unread (twoBytes 65 66) 8 = [65, 66] := by decide
  have size : ((twoBytes 65 66).channelSize 8).toNat = 2 := rfl
  have ended : (0 : UInt8) = 0 ∨ (2 + 2 = pageSize ∧ (0 : UInt8) = 10) := Or.inl rfl
  obtain ⟨s, reached', coupled⟩ := twoBytes_coupled 65 66
  have content' : PointerDriver.unread s 8 = [65, 66] :=
    (coupled.same_unread (by decide)).trans content
  have size' : (s.channelSize 8).toNat = 2 := (coupled.agrees.channelSize 8).trans size
  have array := ((bulk_text_iff fun _ => 0).1 _ reached).2.1
  have pointers := ((bulk_text_iff fun _ => 0).2 s reached').1
  rw [content, size] at array
  rw [content', size'] at pointers
  refine ⟨⟨reached, (array (by decide)).mpr ⟨by decide, rfl, ended⟩⟩, s, reached', ?_⟩
  exact (pointers (by decide)).mpr ⟨by decide, rfl, ended⟩

/-- A channel that is not full, a zero byte, and a full channel with a byte behind the array. -/
theorem bulk_text_not_delivered :
    (Legacy.Reached (Driver.written pairsRam 8 65) ∧
      unread (Driver.written pairsRam 8 65) 8 = [65] ∧
      ¬ Delivers Legacy.ch9Read (Driver.written pairsRam 8 65) (fun _ => 0) [65]) ∧
    (Legacy.Reached (twoBytes 65 0) ∧ unread (twoBytes 65 0) 8 = [65, 0] ∧
      ¬ Delivers Legacy.ch9Read (twoBytes 65 0) (fun _ => 0) [65, 0]) ∧
    (Legacy.Reached (twoBytes 65 66) ∧ unread (twoBytes 65 66) 8 = [65, 66] ∧
      ¬ Delivers Legacy.ch9Read (twoBytes 65 66) (fun _ => 67) [65, 66]) := by
  have one : unread (Driver.written pairsRam 8 65) 8 = [65] := by decide
  have zero : unread (twoBytes 65 0) 8 = [65, 0] := by decide
  have two : unread (twoBytes 65 66) 8 = [65, 66] := by decide
  have delivers_one := array_delivers_iff ((oneByte_reached 65).holding 8) (by decide) fun _ => 0
  have delivers_zero :=
    array_delivers_iff ((twoBytes_reached 65 0).holding 8) (by decide) fun _ => 0
  have delivers_two :=
    array_delivers_iff ((twoBytes_reached 65 66).holding 8) (by decide) fun _ => 67
  rw [one] at delivers_one
  rw [zero] at delivers_zero
  rw [two] at delivers_two
  refine ⟨⟨oneByte_reached 65, one, ?_⟩, ⟨twoBytes_reached 65 0, zero, ?_⟩,
    twoBytes_reached 65 66, two, ?_⟩
  · intro delivers
    have full := (delivers_one.mp delivers).full
    cases full
  · intro delivers
    exact (delivers_zero.mp delivers).nonzero (by decide)
  · intro delivers
    rcases (delivers_two.mp delivers).ended with ended | newline
    · cases ended
    · cases newline.2

end PruBridge
