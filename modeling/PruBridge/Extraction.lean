import PruBridge.InitText

/-!
The loops that take numbers out of a text, with the bounds of what they store into:
`channel_size[10]` of `pru_bridge_init_channels`, and `downcall_value[7]` of
`pru_bridge_downcall` in the legacy drivers (`src/driver/legacy`). A store past either array
ends the run here.
-/
namespace PruBridge.Legacy
open AtomicProgram Driver

/-- `while (*p)`, with what is done with the `i`-th number left open. -/
def scanNumbers {M : Type → Type} [Monad M] (store : Nat → UInt32 → M Unit) :
    (p : Text) → (i : Nat) → M Unit
  | [], _ => pure ()
  | ch :: rest, i =>
    if ch = 0 then
      pure ()
    else if digits : isDigit ch then do
      store i (simpleStrtoul (ch :: rest)).1
      scanNumbers store (simpleStrtoul (ch :: rest)).2 (i + 1)
    else
      scanNumbers store rest i
termination_by p => p.length
decreasing_by
  · simp only [simpleStrtoul, List.dropWhile_cons_of_pos digits, List.length_cons]
    exact Nat.lt_succ_of_le (List.dropWhile_sublist isDigit).length_le
  · exact Nat.lt_succ_self _

def storeEach {M : Type → Type} [Monad M] (store : Nat → UInt32 → M Unit) :
    List Nat → (i : Nat) → M Unit
  | [], _ => pure ()
  | v :: vs, i => do
    store i (UInt32.ofNat v)
    storeEach store vs (i + 1)

theorem scanNumbers_eq {M : Type → Type} [Monad M] (store : Nat → UInt32 → M Unit) (p : Text)
    (i : Nat) : scanNumbers store p i = storeEach store (numbers p) i := by
  induction p, i using scanNumbers.induct with
  | case1 i => simp [scanNumbers, numbers, numbersFrom, storeEach]
  | case2 rest i => simp [scanNumbers, numbers, numbersFrom, storeEach]
  | case3 ch rest i nonzero digits ih =>
    rw [scanNumbers, if_neg nonzero, dif_pos digits, ih, numbers_digit digits, storeEach]
    rfl
  | case4 ch rest i nonzero digits ih =>
    rw [scanNumbers, if_neg nonzero, dif_neg digits, ih, numbers, numbers, numbersFrom,
      if_neg nonzero, if_neg digits]
    rfl

abbrev Values := Fin 7 → Int32

/-- `downcall_value[i] = value;`, converted as the driver does it. -/
def storeValue (cast : UInt32 → Int32) (i : Nat) (value : UInt32) :
    StateT Values (Except Nat) Unit := fun values =>
  if h : i < 7 then .ok ((), Function.update values ⟨i, h⟩ (cast value)) else .error i

/-- `pru_bridge_downcall`: the arguments that it hands to `downcall_idx`, and what it returns.
    `stack` is what the array holds before the loop. -/
def downcallWith (cast : UInt32 → Int32) (buf : Text) (stack : Values) :
    Except Nat (Values × Nat) := do
  let (_, values) ← (scanNumbers (storeValue cast) buf 0).run stack
  pure (values, strlen buf + 1)

/-- In `pru_bridge_firmware.c`, with the conversion to `uint32_t`. -/
def firmwareDowncall : Text → Values → Except Nat (Values × Nat) :=
  downcallWith UInt32.toInt32

/-- In `pru_bridge_pointer.c`, with the conversion to `uint16_t`. -/
def pointerDowncall : Text → Values → Except Nat (Values × Nat) :=
  downcallWith fun value => value.toUInt16.toUInt32.toInt32

theorem storeSizes_past {vs : List Nat} {i : Nat} (le : i ≤ 10) (many : 10 < i + vs.length)
    (m : Ram) : (storeSizes vs i).run m = .error (.sizeIndex 10) := by
  induction vs generalizing i m with
  | nil =>
    rw [List.length_nil] at many
    omega
  | cons v vs ih =>
    rw [List.length_cons] at many
    by_cases bound : i < 10
    · have first : (storeSize i (UInt32.ofNat v)).run m = .ok ((), { m with
          channelSize := Function.update m.channelSize ⟨i, bound⟩ (UInt32.ofNat v) }) := by
        simp [storeSize, bound]
      rw [storeSizes, Prog.run_bind_ok first]
      exact ih (by omega) (by omega) _
    · have last : i = 10 := by omega
      subst last
      rfl

theorem initChannels_past {buf : Text} (many : 10 < (digitRuns buf).length) (m : Ram) :
    (initChannels buf).run m = .error (.sizeIndex 10) := by
  have scan : (scanSizes buf 0).run m = .error (.sizeIndex 10) := by
    rw [scanSizes_eq]
    exact storeSizes_past (Nat.zero_le _) (by rw [numbers_length]; omega) m
  rw [initChannels, Prog.run_bind, scan]

section values
variable {cast : UInt32 → Int32} {vs : List Nat} {i : Nat}

theorem storeEach_fits (few : i + vs.length ≤ 7) (stack : Values) :
    ∃ values, (storeEach (storeValue cast) vs i).run stack = .ok ((), values) := by
  induction vs generalizing i stack with
  | nil => exact ⟨stack, rfl⟩
  | cons v vs ih =>
    rw [List.length_cons] at few
    have bound : i < 7 := by omega
    obtain ⟨values, later⟩ :=
      ih (i := i + 1) (by omega) (Function.update stack ⟨i, bound⟩ (cast (UInt32.ofNat v)))
    have first : (storeValue cast i (UInt32.ofNat v)).run stack =
        .ok ((), Function.update stack ⟨i, bound⟩ (cast (UInt32.ofNat v))) := dif_pos bound
    refine ⟨values, ?_⟩
    rw [storeEach, StateT.run_bind, first]
    exact later

theorem storeEach_past (le : i ≤ 7) (many : 7 < i + vs.length) (stack : Values) :
    (storeEach (storeValue cast) vs i).run stack = .error 7 := by
  induction vs generalizing i stack with
  | nil =>
    rw [List.length_nil] at many
    omega
  | cons v vs ih =>
    rw [List.length_cons] at many
    rw [storeEach, StateT.run_bind]
    by_cases bound : i < 7
    · have first : (storeValue cast i (UInt32.ofNat v)).run stack =
          .ok ((), Function.update stack ⟨i, bound⟩ (cast (UInt32.ofNat v))) := dif_pos bound
      rw [first]
      exact ih (by omega) (by omega) _
    · have last : i = 7 := by omega
      subst last
      rfl

theorem downcallWith_past {buf : Text} (many : 7 < (digitRuns buf).length) (stack : Values) :
    downcallWith cast buf stack = .error 7 := by
  have count := numbers_length buf
  have past : 7 < 0 + (numbers buf).length := by omega
  have run : (storeEach (storeValue cast) (numbers buf) 0).run stack = .error 7 :=
    storeEach_past (Nat.zero_le 7) past stack
  rw [downcallWith, scanNumbers_eq, run]
  rfl

theorem downcallWith_inside_iff (buf : Text) (stack : Values) :
    (∀ i, downcallWith cast buf stack ≠ .error i) ↔ (digitRuns buf).length ≤ 7 := by
  have count := numbers_length buf
  by_cases few : (digitRuns buf).length ≤ 7
  · have fits : 0 + (numbers buf).length ≤ 7 := by omega
    obtain ⟨values, run⟩ := @storeEach_fits cast _ _ fits stack
    rw [downcallWith, scanNumbers_eq, run]
    exact iff_of_true (fun i => nofun) few
  · rw [downcallWith_past (by omega) stack]
    exact iff_of_false (fun inside => inside 7 rfl) few

end values

/-- The loops store inside their arrays on exactly the texts with at most ten numbers for the
    sizes, and at most seven for a downcall. -/
theorem extraction_inside_iff (buf : Text) :
    (∀ m : Ram, (∀ i, (initChannels buf).run m ≠ .error (.sizeIndex i)) ↔
      (digitRuns buf).length ≤ 10) ∧
    (∀ stack, (∀ i, firmwareDowncall buf stack ≠ .error i) ↔ (digitRuns buf).length ≤ 7) ∧
    (∀ stack, (∀ i, pointerDowncall buf stack ≠ .error i) ↔ (digitRuns buf).length ≤ 7) := by
  refine ⟨fun m => ?_, downcallWith_inside_iff buf, downcallWith_inside_iff buf⟩
  by_cases few : (digitRuns buf).length ≤ 10
  · have run := initChannels_run buf m (by rwa [numbers_length])
    rw [run]
    exact iff_of_true (fun i => nofun) few
  · rw [initChannels_past (by omega)]
    exact iff_of_false (fun inside => inside 10 rfl) few

/-- `1 ` eleven times, and eight times. -/
theorem extraction_past_arrays :
    (initChannels (List.replicate 11 [49, 32]).flatten).run zeroRam = .error (.sizeIndex 10) ∧
    firmwareDowncall (List.replicate 8 [49, 32]).flatten (fun _ => 0) = .error 7 ∧
    pointerDowncall (List.replicate 8 [49, 32]).flatten (fun _ => 0) = .error 7 :=
  ⟨initChannels_past (by decide) zeroRam, downcallWith_past (by decide) _,
    downcallWith_past (by decide) _⟩

end PruBridge.Legacy
