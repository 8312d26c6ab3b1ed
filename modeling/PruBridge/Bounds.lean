import PruBridge.MachineWords
import PruBridge.Sysfs

/-!
Where the driver reaches inside and outside its ring bytes. The first write that a ring
cannot take is the first access out of bounds: reads stay on bytes written before.
-/
namespace PruBridge.Driver
open AtomicProgram MachineWords

def InBounds {α : Type} (p : Code α) (m : Ram) : Prop :=
  ∀ k ∈ (p.trace m).filterMap dataCell, k.toNat < totalBufferSize

/-- `buffer_start[c]` as an init computes it, on 32 bits. -/
def start32 (size : Channel → UInt32) (c : Channel) : Nat :=
  (UInt32.ofNat (startOf (fun j => (size j).toNat) c)).toNat

/-- Every write goes to a ring whose first bytes, as many as it was written since the last
    init and no more than its size, lie in `ring->data`. A write to a ring of size zero
    touches one byte and ends the run. -/
def WritesFit : List Call → (size : Channel → UInt32) → (writes : Channel → Nat) → Prop
  | [], _, _ => True
  | .init buf :: rest, size, _ => WritesFit rest (sizesAfter buf size) (fun _ => 0)
  | .channel (.write n _) :: rest, size, writes =>
    start32 size n + min (writes n + 1) (max (size n).toNat 1) ≤ totalBufferSize ∧
      (size n ≠ 0 → WritesFit rest size (Function.update writes n (writes n + 1)))
  | .channel (.read _) :: rest, size, writes => WritesFit rest size writes

section programs
variable {α β : Type}

theorem inBounds_bind (p : Code α) (f : α → Code β) (m : Ram) :
    InBounds (p >>= f) m ↔
      InBounds p m ∧ ∀ a m', p.run m = .ok (a, m') → InBounds (f a) m' := by
  simp only [InBounds, Prog.trace_bind, List.filterMap_append, List.mem_append]
  constructor
  · intro bound
    refine ⟨fun k mem => bound k (Or.inl mem), fun a m' run k mem => bound k (Or.inr ?_)⟩
    rwa [run]
  · rintro ⟨first, later⟩ k (mem | mem)
    · exact first k mem
    · cases run : p.run m with
      | error e =>
        rw [run] at mem
        cases mem
      | ok result =>
        rw [run] at mem
        exact later _ _ run k mem

theorem inBounds_map (p : Code α) (f : α → β) (m : Ram) : InBounds (f <$> p) m ↔ InBounds p m := by
  rw [InBounds, Prog.trace_map, InBounds]

theorem inBounds_session {call : Call} {rest : List Call} {m m' : Ram} {reply : Reply}
    (run : call.body.run m = .ok (reply, m')) :
    InBounds (session (call :: rest)) m ↔ InBounds call.body m ∧ InBounds (session rest) m' := by
  rw [session, inBounds_bind]
  constructor
  · rintro ⟨first, later⟩
    exact ⟨first, ((inBounds_bind _ _ _).mp (later reply m' run)).1⟩
  · rintro ⟨first, later⟩
    refine ⟨first, fun reply' m₁ again => ?_⟩
    rw [run] at again
    cases again
    exact (inBounds_bind _ _ _).mpr ⟨later, fun _ _ _ k mem => by cases mem⟩

theorem inBounds_session_fault {call : Call} {rest : List Call} {m : Ram} {e : Fault}
    (run : call.body.run m = .error e) :
    InBounds (session (call :: rest)) m ↔ InBounds call.body m := by
  rw [session, inBounds_bind]
  apply and_iff_left
  intro reply m' again
  rw [run] at again
  cases again

theorem storeSizes_dataless (vs : List Nat) (i : Nat) :
    (storeSizes vs i).Only fun a => dataCell a = none := by
  induction vs generalizing i with
  | nil => trivial
  | cons v vs ih =>
    unfold storeSizes storeSize
    split
    · exact ⟨rfl, rfl, fun _ => ih (i + 1)⟩
    · trivial

theorem layoutLoop_dataless (is : List Channel) (tempIndex : UInt32) :
    (layoutLoop is tempIndex).Only fun a => dataCell a = none := by
  induction is generalizing tempIndex with
  | nil => trivial
  | cons i is ih => exact ⟨rfl, rfl, fun _ => ⟨rfl, fun _ => ⟨rfl, rfl, rfl, ih _⟩⟩⟩

theorem init_inBounds (buf : Text) (m : Ram) : InBounds (initChannels buf) m := by
  have only : (initChannels buf).Only fun a => dataCell a = none := by
    rw [initChannels, scanSizes_eq]
    refine (storeSizes_dataless _ _).bind fun _ => (layoutLoop_dataless _ _).bind fun _ => ?_
    exact ⟨rfl, rfl, fun _ => trivial⟩
  intro k mem
  obtain ⟨a, here, some⟩ := List.mem_filterMap.mp mem
  rw [only.trace m here] at some
  cases some

end programs

theorem write_inBounds_iff (m : Ram) (c : Channel) (b : UInt8) :
    InBounds (writeBuffer c b) m ↔ (m.bufferStart c + m.tail c).toNat < totalBufferSize := by
  have cells : ((writeBuffer c b).trace m).filterMap dataCell =
      [m.bufferStart c + m.tail c, m.bufferStart c + m.tail c] := by
    by_cases room : m.indexData c < m.channelSize c <;> by_cases zero : m.channelSize c = 0 <;>
      simp [writeBuffer, tailCell, countUp, printkRing, advanceTail, umod, room, zero, dataCell,
        List.filterMap_cons]
  simp [InBounds, cells]

theorem read_inBounds_iff (m : Ram) (c : Channel) :
    InBounds (readBuffer c) m ↔
      (m.indexData c ≠ 0 → (m.bufferStart c + m.head c).toNat < totalBufferSize) := by
  by_cases none : m.indexData c = 0
  · simp [InBounds, readBuffer, none, dataCell, List.filterMap_cons]
  · have cells : ((readBuffer c).trace m).filterMap dataCell =
        [m.bufferStart c + m.head c, m.bufferStart c + m.head c] := by
      by_cases zero : m.channelSize c = 0 <;>
        simp [readBuffer, headCell, printkRing, advanceHead, umod, none, zero, dataCell,
          List.filterMap_cons]
    simp [InBounds, cells, none]

/-- What holds between two accesses, with the writes to each channel since the last init. -/
structure Kept (m : Ram) (writes : Channel → Nat) : Prop where
  start : ∀ c, (m.bufferStart c).toNat = start32 m.channelSize c
  idle : ∀ c, m.channelSize c = 0 → m.indexData c = 0 ∧ m.tail c = 0 ∧ writes c = 0
  tail : ∀ c, m.channelSize c ≠ 0 → (m.tail c).toNat = writes c % (m.channelSize c).toNat
  head : ∀ c, m.channelSize c ≠ 0 → m.head c < m.channelSize c
  /-- Until a ring has been filled once, its unread bytes end where it was last written. -/
  written : ∀ c, writes c < (m.channelSize c).toNat →
    (m.head c).toNat + (m.indexData c).toNat ≤ writes c
  fits : ∀ c, 0 < writes c →
    start32 m.channelSize c + min (writes c) (m.channelSize c).toNat ≤ totalBufferSize

theorem laidOut_kept (m : Ram) (size : Channel → UInt32) :
    Kept (laidOut m size) (fun _ => 0) := by
  constructor
  · exact fun c => rfl
  · exact fun c _ => ⟨rfl, rfl, rfl⟩
  · exact fun c _ => (Nat.zero_mod _).symm
  · exact fun c pos => UInt32.lt_iff_toNat_lt.mpr (toNat_pos pos)
  · exact fun c _ => Nat.le_refl 0
  · exact fun c none => absurd none (Nat.lt_irrefl 0)

theorem Cleared.kept {m : Ram} (cleared : Cleared m) : Kept m (fun _ => 0) := by
  have zero : ∀ c, m.channelSize c = 0 := fun c => by rw [cleared.channelSize]
  constructor
  · intro c
    have none : startOf (fun _ => 0) c = 0 := Finset.sum_const_zero
    rw [cleared.bufferStart, cleared.channelSize, start32]
    simp only [UInt32.toNat_zero, none]
    rfl
  · intro c _
    rw [cleared.indexData, cleared.tail]
    exact ⟨rfl, rfl, rfl⟩
  · exact fun c pos => absurd (zero c) pos
  · exact fun c pos => absurd (zero c) pos
  · intro c room
    rw [zero] at room
    cases room
  · exact fun c none => absurd none (Nat.lt_irrefl 0)

section steps
variable {m : Ram} {writes : Channel → Nat} {c : Channel}

theorem Kept.write_fits_iff (kept : Kept m writes) :
    (m.bufferStart c + m.tail c).toNat < totalBufferSize ↔
      start32 m.channelSize c + min (writes c + 1) (max (m.channelSize c).toNat 1) ≤
        totalBufferSize := by
  have start := kept.start c
  have word := (m.bufferStart c).toNat_lt
  have fits := kept.fits c
  rw [UInt32.toNat_add, start]
  simp only [totalBufferSize] at *
  by_cases pos : m.channelSize c = 0
  · obtain ⟨-, tail, none⟩ := kept.idle c pos
    rw [tail, pos, none, UInt32.toNat_zero]
    omega
  · have size := toNat_pos pos
    have tail := kept.tail c pos
    rcases Nat.lt_or_ge (writes c) (m.channelSize c).toNat with fresh | full
    · rw [Nat.mod_eq_of_lt fresh] at tail
      omega
    · have less := Nat.mod_lt (writes c) size
      omega

theorem Kept.read_fits (kept : Kept m writes) (some : m.indexData c ≠ 0) :
    (m.bufferStart c + m.head c).toNat < totalBufferSize := by
  have start := kept.start c
  have fits := kept.fits c
  have count := toNat_pos some
  have pos : m.channelSize c ≠ 0 := fun zero => some (kept.idle c zero).1
  have head := UInt32.lt_iff_toNat_lt.mp (kept.head c pos)
  have written := kept.written c
  rw [UInt32.toNat_add, start]
  simp only [totalBufferSize] at *
  omega

theorem Kept.write (kept : Kept m writes) (b : UInt8) (pos : m.channelSize c ≠ 0)
    (fits : start32 m.channelSize c + min (writes c + 1) (max (m.channelSize c).toNat 1) ≤
      totalBufferSize) :
    Kept (Driver.written m c b) (Function.update writes c (writes c + 1)) := by
  have size := toNat_pos pos
  have tail := kept.tail c pos
  have less := Nat.mod_lt (writes c) size
  have short : m.tail c < m.channelSize c := by
    rw [UInt32.lt_iff_toNat_lt, tail]
    exact less
  constructor
  · exact kept.start
  · intro d zero
    have other : d ≠ c := by
      rintro rfl
      exact pos zero
    rw [written_indexData_of_ne other, written_tail_of_ne other, Function.update_of_ne other]
    exact kept.idle d zero
  · intro d some
    by_cases same : d = c
    · subst same
      rw [written_tail, toNat_next short, tail, Function.update_self]
      exact Nat.mod_add_mod _ _ _
    · rw [written_tail_of_ne same, Function.update_of_ne same]
      exact kept.tail d some
  · exact kept.head
  · intro d fresh
    by_cases same : d = c
    · subst same
      rw [Function.update_self] at fresh ⊢
      have before := kept.written d (Nat.lt_of_succ_lt fresh)
      change (m.head d).toNat + _ ≤ _
      by_cases room : m.indexData d < m.channelSize d
      · rw [written_indexData room, toNat_add_one room]
        omega
      · rw [written_indexData_full room]
        omega
    · rw [Function.update_of_ne same] at fresh ⊢
      rw [written_indexData_of_ne same]
      exact kept.written d fresh
  · intro d some
    by_cases same : d = c
    · subst same
      have room : max (m.channelSize d).toNat 1 = (m.channelSize d).toNat :=
        Nat.max_eq_left size
      rw [room] at fits
      rw [Function.update_self]
      exact fits
    · rw [Function.update_of_ne same] at some ⊢
      exact kept.fits d some

theorem Kept.read (kept : Kept m writes) (some : m.indexData c ≠ 0) :
    Kept (consumed m c) writes := by
  have pos : m.channelSize c ≠ 0 := fun zero => some (kept.idle c zero).1
  have head := kept.head c pos
  have next := toNat_next head
  have count := toNat_sub_one some
  constructor
  · exact kept.start
  · intro d zero
    have other : d ≠ c := by
      rintro rfl
      exact pos zero
    rw [consumed_indexData_of_ne other]
    exact kept.idle d zero
  · exact kept.tail
  · intro d somed
    by_cases same : d = c
    · subst same
      rw [consumed_head]
      exact next_lt head
    · rw [consumed_head_of_ne same]
      exact kept.head d somed
  · intro d fresh
    have before := kept.written d fresh
    by_cases same : d = c
    · subst same
      have positive := toNat_pos some
      change _ < (m.channelSize d).toNat at fresh
      rw [consumed_head, consumed_indexData, next, count, Nat.mod_eq_of_lt (by omega)]
      omega
    · rw [consumed_head_of_ne same, consumed_indexData_of_ne same]
      exact before
  · exact kept.fits

end steps

theorem chWrite_inBounds_iff {m : Ram} {n : Channel} {buf : Text} :
    InBounds (chWrite n buf) m ↔ (m.bufferStart n + m.tail n).toNat < totalBufferSize := by
  rw [chWrite, inBounds_bind, writeBufferWrapper, write_inBounds_iff]
  exact and_iff_left fun _ _ _ k mem => by cases mem

theorem write_call_inBounds_iff (m : Ram) (n : Channel) (buf : Text) :
    InBounds (Call.channel (.write n buf)).body m ↔
      (m.bufferStart n + m.tail n).toNat < totalBufferSize := by
  rw [Call.body, ChannelCall.body, inBounds_map, writeHandler_eq, chWrite_inBounds_iff]

theorem read_call_inBounds_iff (m : Ram) (n : Channel) :
    InBounds (Call.channel (.read n)).body m ↔ (m.indexData (served n) ≠ 0 →
      (m.bufferStart (served n) + m.head (served n)).toNat < totalBufferSize) := by
  rw [Call.body, ChannelCall.body, inBounds_map, readHandler_eq, chRead, inBounds_bind,
    read_inBounds_iff]
  exact and_iff_left fun _ _ _ k mem => by cases mem

theorem session_inBounds_iff {m : Ram} {writes : Channel → Nat} (kept : Kept m writes)
    {calls : List Call} (short : ∀ call ∈ calls, call.Short) :
    InBounds (session calls) m ↔ WritesFit calls m.channelSize writes := by
  induction calls generalizing m writes with
  | nil => exact ⟨fun _ => trivial, fun _ k mem => by cases mem⟩
  | cons call rest ih =>
    have later : ∀ call ∈ rest, call.Short := fun call mem => short call (by simp [mem])
    cases call with
    | init buf =>
      have run := init_run m buf (short (.init buf) (by simp))
      have bound := (inBounds_map _ Reply.count m).mpr (init_inBounds buf m)
      rw [inBounds_session run, WritesFit]
      exact (and_iff_right bound).trans (ih (laidOut_kept m _) later)
    | channel call =>
      cases call with
      | write n buf =>
        have fits := (write_call_inBounds_iff m n buf).trans kept.write_fits_iff
        by_cases pos : m.channelSize n = 0
        · rw [inBounds_session_fault (write_run_zero m n buf pos), WritesFit, fits]
          exact (and_iff_left fun some => absurd pos some).symm
        · rw [inBounds_session (write_run m n buf pos), WritesFit, fits, and_congr_right_iff]
          intro room
          rw [ih (kept.write (buf.headD 0) pos room) later]
          exact ⟨fun rest _ => rest, fun rest => rest pos⟩
      | read n =>
        have bound := (read_call_inBounds_iff m n).mpr kept.read_fits
        by_cases none : m.indexData (served n) = 0
        · rw [inBounds_session (read_run_empty m n none), and_iff_right bound]
          exact ih kept later
        · have pos : m.channelSize (served n) ≠ 0 := fun zero => none (kept.idle _ zero).1
          rw [inBounds_session (read_run m n pos none), and_iff_right bound]
          exact ih (kept.read none) later

/-- A session on the files stays inside `ring->data` exactly when its writes fit. -/
theorem sysfs_in_bounds_iff (m : Ram) (probed : AfterProbe m) (calls : List Call)
    (short : ∀ call ∈ calls, call.Short) :
    InBounds (session calls) m ↔ WritesFit calls (fun _ => 0) (fun _ => 0) := by
  have cleared := probed.cleared
  rw [session_inBounds_iff cleared.kept short, cleared.channelSize]

/-- `11500`: one ring takes all the bytes. -/
theorem sysfs_in_bounds_one_ring : ∃ m, AfterProbe m ∧ InBounds (session
    [.init [49, 49, 53, 48, 48], .channel (.write 0 [65]), .channel (.read 0)]) m := by
  obtain ⟨m, probed⟩ := exists_afterProbe
  refine ⟨m, probed, (sysfs_in_bounds_iff m probed _ (by decide)).mpr ?_⟩
  exact ⟨by decide, fun _ => trivial⟩

/-- `11500 1`: the second ring starts behind the last byte, and the first write to it is
    the access `ring->data[11500]`. -/
theorem sysfs_out_of_bounds : ∃ m, AfterProbe m ∧ ¬ InBounds (session
    [.init [49, 49, 53, 48, 48, 32, 49], .channel (.write 1 [65])]) m := by
  obtain ⟨m, probed⟩ := exists_afterProbe
  refine ⟨m, probed, fun bound => ?_⟩
  rw [session_inBounds_iff probed.cleared.kept (by decide), probed.cleared.channelSize] at bound
  exact absurd bound.1 (by decide)

end PruBridge.Driver
