import PruBridge.RingBounds

/-!
What a store to a `chN_write` file returns, against what it puts into the channel. The
handler gets the bytes of the caller with a zero byte behind them.
-/
namespace PruBridge
open AtomicProgram Driver MachineWords

def nextCells (m : Ram) (c : Channel) (k : Nat) : List UInt32 :=
  (List.range k).map fun j => m.bufferStart c +
    UInt32.ofNat (((m.head c).toNat + (m.indexData c).toNat + j) % (m.channelSize c).toNat)

/-- The call returns the number of bytes that it appended to the channel, from the front of the
    caller's buffer: they are behind the unread bytes, and they are what it stored. It stays in
    `ring->data`, and so do the bytes that wait to be read after it. -/
def Acknowledged (m : Ram) (n : Channel) (buf : Text) : Prop :=
  ∃ r m', (writeHandler n buf).run m = .ok (r, m') ∧ r ≤ buf.length ∧
    InBounds (writeHandler n buf) m ∧ (∀ k ∈ unreadCells m' n, k.toNat < totalBufferSize) ∧
    unread m' n = unread m n ++ buf.take r ∧
    dataStores (writeHandler n buf) m = (nextCells m n r).zip (buf.take r)

section store
variable {m : Ram} {n : Channel} {buf : Text}

theorem chWrite_stores (pos : m.channelSize n ≠ 0) :
    dataStores (chWrite n buf) m = [(m.bufferStart n + m.tail n, buf.headD 0)] := by
  have stores := driverWrite_stores pos (buf.headD 0)
  unfold chWrite writeBufferWrapper
  rw [dataStores_bind (writeBuffer_run m n _ pos), stores]
  rfl

theorem strlen_zero_iff : strlen buf = 0 ↔ ∀ b ∈ buf.head?, b = 0 := by
  cases buf with
  | nil => simp [strlen]
  | cons b rest =>
    by_cases zero : b = 0
    · simp [strlen, zero]
    · simp [strlen, zero]

theorem cells_apart {j k : Nat} (less : j < k) (inside : k < (m.channelSize n).toNat) :
    m.bufferStart n + UInt32.ofNat (((m.head n).toNat + j) % (m.channelSize n).toNat) ≠
      m.bufferStart n + UInt32.ofNat (((m.head n).toNat + k) % (m.channelSize n).toNat) := by
  have word := (m.channelSize n).toNat_lt
  have small : ∀ i, ((m.head n).toNat + i) % (m.channelSize n).toNat < 2 ^ 32 :=
    fun i => Nat.lt_trans (Nat.mod_lt _ (by omega)) word
  intro same
  have places := add_ofNat_injective (small j) (small k) same
  have offsets : j % (m.channelSize n).toNat = k % (m.channelSize n).toNat :=
    Nat.ModEq.add_left_cancel' (m.head n).toNat places
  rw [Nat.mod_eq_of_lt (by omega), Nat.mod_eq_of_lt inside] at offsets
  omega

/-- A byte stored behind the unread ones is appended to them. -/
theorem unread_written (room : (m.indexData n).toNat < (m.channelSize n).toNat)
    (tail : (m.tail n).toNat =
      ((m.head n).toNat + (m.indexData n).toNat) % (m.channelSize n).toNat) (b : UInt8) :
    unread (written m n b) n = unread m n ++ [b] := by
  have count := written_count room b
  have place : UInt32.ofNat (((m.head n).toNat + (m.indexData n).toNat) %
      (m.channelSize n).toNat) = m.tail n := ofNat_word tail
  simp only [unread, unreadCells, count, List.range_succ, List.map_append, List.map_map]
  congr 1
  · apply List.map_congr_left
    intro j mem
    have apart := cells_apart (List.mem_range.mp mem) room
    rw [place] at apart
    exact Function.update_of_ne apart _ _
  · have here : (written m n b).data (m.bufferStart n + m.tail n) = b := Function.update_self _ _ _
    rw [← place] at here
    exact congrArg (fun value => [value]) here

theorem written_cells_fit_iff (room : (m.indexData n).toNat < (m.channelSize n).toNat)
    (b : UInt8) : (∀ k ∈ unreadCells (written m n b) n, k.toNat < totalBufferSize) ↔
      CellsFit m n (m.head n) ((m.indexData n).toNat + 1) := by
  rw [unreadCells_fit_iff, written_count room b]
  rfl

/-- The return is right only for a buffer that starts with a zero byte, on a channel whose tail
    is where the unread bytes end, if they and the cell behind them are in `ring->data`. -/
theorem acknowledged_iff (m : Ram) (n : Channel) (buf : Text) (nonempty : buf ≠ [])
    (room : (m.indexData n).toNat + buf.length ≤ (m.channelSize n).toNat) :
    Acknowledged m n buf ↔ buf.head? = some 0 ∧ (m.tail n).toNat =
      ((m.head n).toNat + (m.indexData n).toNat) % (m.channelSize n).toNat ∧
        CellsFit m n (m.head n) ((m.indexData n).toNat + 1) := by
  obtain ⟨b, rest, rfl⟩ := List.exists_cons_of_ne_nil nonempty
  rw [List.length_cons] at room
  have pos : m.channelSize n ≠ 0 := by
    intro zero
    rw [zero, UInt32.toNat_zero] at room
    omega
  have stores : dataStores (chWrite n (b :: rest)) m = [(m.bufferStart n + m.tail n, b)] :=
    chWrite_stores pos
  have content := written_cells_fit_iff (m := m) (n := n) (by omega) b
  unfold Acknowledged
  rw [writeHandler_eq, chWrite_run m n _ pos, stores, chWrite_inBounds_iff]
  constructor
  · intro acknowledged
    rcases acknowledged with ⟨r, m', run, le, -, fits, -, placed⟩
    cases run
    have one := congrArg List.length placed
    simp only [nextCells, List.length_zip, List.length_map, List.length_range, List.length_take,
      List.length_singleton] at one
    have ended : strlen (b :: rest) = 0 := by omega
    have zero : b = 0 := strlen_zero_iff.mp ended b rfl
    rw [ended] at placed
    have cell := congrArg Prod.fst (List.cons.inj placed).1
    have offset := (UInt32.add_right_inj _).mp cell
    rw [offset, toNat_ofNat_mod _ (toNat_pos pos)]
    exact ⟨congrArg some zero, rfl, content.mp fits⟩
  · intro condition
    rcases condition with ⟨first, tail, fits⟩
    cases first
    have ended : strlen (0 :: rest) = 0 := strlen_zero_iff.mpr (by simp)
    have word := ofNat_word tail
    have inside : m.tail n < m.channelSize n := by
      rw [UInt32.lt_iff_toNat_lt, tail]
      exact Nat.mod_lt _ (toNat_pos pos)
    refine ⟨_, _, rfl, ?_, ?_, content.mpr fits, ?_, ?_⟩
    · rw [ended]
      exact Nat.succ_le_succ (Nat.zero_le _)
    · exact (cellsFit_one inside).mp ((cellsFit_add_iff tail 1).mp fits).2
    · rw [ended]
      exact unread_written (by omega) tail 0
    · rw [ended]
      simp [nextCells, word]

end store

theorem acknowledged_zero_byte : Acknowledged pairsRam 3 [0, 65] :=
  (acknowledged_iff pairsRam 3 [0, 65] (by decide) (by decide)).mpr (by decide)

/-- One byte `A` written to `ch1_write` of an empty channel is acknowledged as two, and of
    `A B` the handler stores one byte and acknowledges three. -/
theorem letter_overacknowledged : AfterInit pairsRam ∧
    (∃ m', (writeHandler 0 [65]).run pairsRam = .ok (2, m') ∧ unread m' 0 = [65]) ∧
    (∃ m', (writeHandler 0 [65, 66]).run pairsRam = .ok (3, m') ∧ unread m' 0 = [65]) ∧
    ¬ Acknowledged pairsRam 0 [65] ∧ ¬ Acknowledged pairsRam 0 [65, 66] := by
  refine ⟨pairsRam_left.init, ⟨_, rfl, by decide⟩, ⟨_, rfl, by decide⟩, ?_, ?_⟩
  · intro acknowledged
    rcases acknowledged with ⟨r, m', run, le, -⟩
    cases run
    exact absurd le (by decide)
  · intro acknowledged
    rcases acknowledged with ⟨r, m', run, le, -⟩
    cases run
    exact absurd le (by decide)

end PruBridge
