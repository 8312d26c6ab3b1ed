import PruBridge.BulkTransfer

/-!
`flush_buffer` empties a channel. Each round reads with a counter one lower and a head one
further than the round before, and the bound was taken before the first.
-/
namespace PruBridge
open AtomicProgram MachineWords

section flush
variable {m : Ram} {c : Channel}

theorem flushLoop_run (head : m.head c < m.channelSize c) (left i : Nat)
    (enough : left ≤ (m.indexData c).toNat) (data : Nat → UInt8) :
    (Driver.flushLoop c left i data).run m =
      .ok (filledWith (ringByte m c) left i data, drained m c left) := by
  have pos := toNat_pos_of_lt head
  induction left generalizing m i data with
  | zero =>
    rw [drained_zero head, filledWith_zero]
    rfl
  | succ left ih =>
    have some : m.indexData c ≠ 0 := by
      intro none
      rw [none, UInt32.toNat_zero] at enough
      omega
    have first := Driver.readBuffer_run m c (ne_zero_of_lt head) some
    rw [consumed_eq head, ringByte_zero head] at first
    have count : (drained m c 1).indexData c = m.indexData c - 1 := recounted_indexData _
    have less := toNat_sub_one some
    have later := ih (m := drained m c 1) (soughtBy_lt pos 1) (i + 1) (by rw [count]; omega)
      (Function.update data i (ringByte m c 0)) pos
    have moved : ∀ k, ringByte (drained m c 1) c k = ringByte m c (1 + k) :=
      ringByte_soughtBy pos 1
    rw [Driver.flushLoop, Prog.run_bind_ok first, later, drained_drained pos, Nat.add_comm 1 left,
      filledWith_succ moved]

theorem flushBuffer_run (head : m.head c < m.channelSize c)
    (small : (m.indexData c).toNat < 2 ^ 31) (data : Nat → UInt8) :
    (Driver.flushBuffer c data).run m =
      .ok (filledWith (ringByte m c) (m.indexData c).toNat 0 data,
        drained m c (m.indexData c).toNat) := by
  have loop := flushLoop_run head (m.indexData c).toNat 0 (Nat.le_refl _) data
  rw [← loop]
  simp [Driver.flushBuffer, toNat_small_int small]

end flush

/-- `flush_buffer` gives the unread bytes of its channel in their order, and no byte more. It
    leaves the channel empty, its head where the last of them was. -/
theorem flush_drains (m : Ram) (c : Channel) (size : 0 < (m.channelSize c).toNat)
    (head : m.head c < m.channelSize c) (index : m.indexData c ≤ m.channelSize c)
    (fits : (m.bufferStart c).toNat + (m.channelSize c).toNat ≤ totalBufferSize)
    (data : Nat → UInt8) :
    ∃ data' m', (Driver.flushBuffer c data).run m = .ok (data', m') ∧
      (∀ i, i < (m.indexData c).toNat → data' i = m.data (UInt32.ofNat
        ((m.bufferStart c).toNat + ((m.head c).toNat + i) % (m.channelSize c).toNat))) ∧
      (∀ i, (m.indexData c).toNat ≤ i → data' i = data i) ∧
      (m.indexData c).toNat ≤ (m.channelSize c).toNat ∧
      m'.indexData c = 0 ∧
      (m'.head c).toNat =
        ((m.head c).toNat + (m.indexData c).toNat) % (m.channelSize c).toNat ∧
      m'.tail = m.tail ∧ m'.data = m.data ∧ Untouched c m m' := by
  have run := flushBuffer_run head (small_index index fits) data
  refine ⟨_, _, run, ?_, ?_, UInt32.le_iff_toNat_le.mp index, ?_, ?_, rfl, rfl, ?_⟩
  · intro i less
    unfold filledWith ringByte
    rw [if_pos (by omega), Nat.sub_zero, UInt32.ofNat_add, UInt32.ofNat_toNat]
  · intro i past
    unfold filledWith
    rw [if_neg (by omega)]
  · unfold drained
    rw [recounted_indexData, UInt32.ofNat_toNat, UInt32.sub_self]
  · rw [← toNat_ofNat_mod _ size]
    exact congrArg UInt32.toNat (soughtBy_head _)
  · exact ⟨rfl, rfl, rfl, fun d other => Function.update_of_ne other _ _,
      fun d other => Function.update_of_ne other _ _, fun _ _ => rfl⟩

/-- The unread bytes of `acrossEnd` are those in the cells 5 and 3. -/
theorem flush_across_end : ∃ data' m',
    (Driver.flushBuffer 1 (fun _ => 0)).run acrossEnd = .ok (data', m') ∧
    (∀ i, i < 2 → data' i = acrossEnd.data (UInt32.ofNat (3 + (2 + i) % 3))) ∧
    (∀ i, 2 ≤ i → data' i = 0) ∧ 2 ≤ 3 ∧ m'.indexData 1 = 0 ∧
    (m'.head 1).toNat = (2 + 2) % 3 ∧ m'.tail = acrossEnd.tail ∧
    m'.data = acrossEnd.data ∧ Untouched 1 acrossEnd m' :=
  flush_drains acrossEnd 1 (by decide) (by decide) (by decide) (by decide) fun _ => 0

end PruBridge
