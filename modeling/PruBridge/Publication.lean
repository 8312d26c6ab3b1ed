import PruBridge.MachineWords
import PruBridge.Sysfs

/-!
What the PRU can find in the control block while the ARM writes to the `init` file. The
flag goes up behind the first layout and stays up, so a second init changes the layout
word by word in front of a reader that may already use it.
-/
namespace PruBridge.Driver
open AtomicProgram

def inits : List Text → Code Unit
  | [] => pure ()
  | buf :: rest => do
    let _ ← initChannels buf
    inits rest

def startWords (size : Channel → UInt32) (c : Channel) : UInt32 :=
  UInt32.ofNat (startOf (fun j => (size j).toNat) c)

structure Consistent (m : Ram) : Prop where
  start : ∀ i, m.bufferStart i = startWords m.channelSize i
  index : ∀ i, m.indexData i ≤ m.channelSize i

/-- Between any two accesses of the driver, a flag that is up stands over a consistent
    layout. -/
def SafelyPublished (bufs : List Text) (m : Ram) : Prop :=
  ∀ s ∈ (inits bufs).states m, s.initCheck = 1 → Consistent s

def KeepsSizes : List Text → (size : Channel → UInt32) → Prop
  | [], _ => True
  | buf :: rest, size => (∀ c, c ≠ 9 → sizesAfter buf size c = size c) ∧
    KeepsSizes rest (sizesAfter buf size)

def LaterKeepSizes : List Text → Prop
  | [] => True
  | first :: rest => KeepsSizes rest (sizesAfter first fun _ => 0)

theorem startOf_succ (size : Channel → Nat) (i : Nat) (next : i + 1 < 10) :
    startOf size ⟨i + 1, next⟩ =
      startOf size ⟨i, Nat.lt_of_succ_lt next⟩ + size ⟨i, Nat.lt_of_succ_lt next⟩ := by
  have places : Finset.Iio (⟨i + 1, next⟩ : Channel) =
      Finset.Iic (⟨i, Nat.lt_of_succ_lt next⟩ : Channel) := by
    ext j
    simp only [Finset.mem_Iio, Finset.mem_Iic, Fin.lt_def, Fin.le_def]
    omega
  rw [startOf_add_size, startOf, places]

theorem startWords_inj_iff (size size' : Channel → UInt32) :
    startWords size = startWords size' ↔ ∀ c, c ≠ 9 → size c = size' c := by
  constructor
  · intro same c inner
    have next : c.val + 1 < 10 := by
      have : c.val ≠ 9 := fun eq => inner (Fin.ext eq)
      omega
    have here := congrFun same c
    have behind := congrFun same ⟨c.val + 1, next⟩
    simp only [startWords, startOf_succ, UInt32.ofNat_add, UInt32.ofNat_toNat] at here behind
    rw [here] at behind
    exact (UInt32.add_right_inj _).mp behind
  · intro same
    funext c
    have sums : startOf (fun j => (size j).toNat) c = startOf (fun j => (size' j).toNat) c := by
      apply Finset.sum_congr rfl
      intro j mem
      have before := Finset.mem_Iio.mp mem
      have inner : j ≠ 9 := by
        rintro rfl
        exact absurd before (not_lt.mpr (Fin.le_last c))
      exact congrArg UInt32.toNat (same j inner)
    rw [startWords, startWords, sums]

section states
variable {m s : Ram}

theorem storeSizes_states {vs : List Nat} {i : Nat}
    (kept : ∀ c, c ≠ 9 → sizesFrom vs i m.channelSize c = m.channelSize c)
    (mem : s ∈ (storeSizes vs i).states m) :
    ∃ size, s = { m with channelSize := size } ∧ ∀ c, c ≠ 9 → size c = m.channelSize c := by
  induction vs generalizing i m with
  | nil => cases mem
  | cons v vs ih =>
    unfold storeSizes storeSize at mem
    split at mem
    · rename_i bound
      have stored : ∀ c, c ≠ 9 →
          Function.update m.channelSize ⟨i, bound⟩ (UInt32.ofNat v) c = m.channelSize c := by
        intro c inner
        by_cases same : c = ⟨i, bound⟩
        · subst same
          have value := kept _ inner
          simp only [sizesFrom, le_refl, ↓reduceIte, Nat.sub_self, List.getElem?_cons_zero,
            Option.elim_some] at value
          rw [Function.update_self, value]
        · exact Function.update_of_ne same _ _
      have here : ∃ size, (m.set (.channelSize ⟨i, bound⟩) (UInt32.ofNat v)) =
          { m with channelSize := size } ∧ ∀ c, c ≠ 9 → size c = m.channelSize c :=
        ⟨_, rfl, stored⟩
      rcases List.mem_cons.mp mem with rfl | mem
      · exact here
      rcases List.mem_cons.mp mem with rfl | mem
      · exact here
      · have later : ∀ c, c ≠ 9 → sizesFrom vs (i + 1)
            (Function.update m.channelSize ⟨i, bound⟩ (UInt32.ofNat v)) c =
              Function.update m.channelSize ⟨i, bound⟩ (UInt32.ofNat v) c := by
          intro c inner
          rw [sizesFrom_cons, kept c inner, stored c inner]
        obtain ⟨size, same, sizes⟩ :=
          ih (m := m.set (.channelSize ⟨i, bound⟩) (UInt32.ofNat v)) later mem
        exact ⟨size, same, fun c inner => (sizes c inner).trans (stored c inner)⟩
    · cases mem

/-- The loop is about to store the starts that are already there. -/
def Agrees (size : Channel → UInt32) : List Channel → (tempIndex : UInt32) →
    (start : Channel → UInt32) → Prop
  | [], _, _ => True
  | i :: rest, tempIndex, start => start i = tempIndex ∧ Agrees size rest (tempIndex + size i) start

theorem agrees_startWords (size : Channel → UInt32) :
    Agrees size (List.finRange 10) 0 (startWords size) := by
  have order : List.finRange 10 = [0, 1, 2, 3, 4, 5, 6, 7, 8, 9] := rfl
  simp only [order, Agrees, startWords, startOf_list]
  simp [UInt32.ofNat_add, UInt32.add_assoc]

theorem layoutLoop_states {is : List Channel} {tempIndex : UInt32}
    (agrees : Agrees m.channelSize is tempIndex m.bufferStart) (empty : ∀ c, m.indexData c = 0)
    (mem : s ∈ (layoutLoop is tempIndex).states m) :
    s.channelSize = m.channelSize ∧ s.bufferStart = m.bufferStart ∧ ∀ c, s.indexData c = 0 := by
  induction is generalizing tempIndex m with
  | nil => cases mem
  | cons i is ih =>
    obtain ⟨here, later⟩ := agrees
    have start : Function.update m.bufferStart i tempIndex = m.bufferStart := by
      rw [← here, Function.update_eq_self]
    have index : Function.update m.indexData i 0 = m.indexData := by
      rw [← empty i, Function.update_eq_self]
    simp only [layoutLoop, load, store, Prog.ret_bind, Prog.load_bind, Prog.store_bind,
      Prog.states_load, Prog.states_store, memory_get, memory_set, Ram.get, Ram.set, start, index,
      List.mem_cons] at mem
    rcases mem with rfl | rfl | rfl | rfl | rfl | rfl | mem
    · exact ⟨rfl, rfl, empty⟩
    · exact ⟨rfl, rfl, empty⟩
    · exact ⟨rfl, rfl, empty⟩
    · exact ⟨rfl, rfl, empty⟩
    · exact ⟨rfl, rfl, empty⟩
    · exact ⟨rfl, rfl, empty⟩
    · exact ih (m := { m with
        head := Function.update m.head i 0
        tail := Function.update m.tail i 0 }) later empty mem

end states

theorem storeSizes_flagless (vs : List Nat) (i : Nat) :
    (storeSizes vs i).Only fun a => ∀ v, a ≠ .store .initCheck v := by
  induction vs generalizing i with
  | nil => trivial
  | cons v vs ih =>
    unfold storeSizes storeSize
    split
    · exact ⟨by simp, by simp, fun _ => ih (i + 1)⟩
    · trivial

theorem layoutLoop_flagless (is : List Channel) (tempIndex : UInt32) :
    (layoutLoop is tempIndex).Only fun a => ∀ v, a ≠ .store .initCheck v := by
  induction is generalizing tempIndex with
  | nil => trivial
  | cons i is ih => exact ⟨nofun, nofun, fun _ => ⟨nofun, fun _ => ⟨nofun, nofun, nofun, ih _⟩⟩⟩

theorem laidOut_consistent (m : Ram) (size : Channel → UInt32) : Consistent (laidOut m size) :=
  ⟨fun _ => rfl, fun _ => UInt32.zero_le⟩

section init
variable {buf : Text} {m s : Ram}

theorem mem_init_states (few : (numbers buf).length ≤ 10) :
    s ∈ (initChannels buf).states m ↔ s ∈ (storeSizes (numbers buf) 0).states m ∨
      s ∈ (layoutLoop (List.finRange 10) 0).states
        { m with channelSize := sizesAfter buf m.channelSize } ∨
      s = laidOut m (sizesAfter buf m.channelSize) := by
  have scan := storeSizes_run (numbers buf) 0 m (by omega)
  have layout := layoutLoop_run (List.finRange 10) 0
    { m with channelSize := sizesAfter buf m.channelSize }
  simp only [startsFrom_all, clearedFor_all] at layout
  rw [initChannels, scanSizes_eq, Prog.states_bind_ok scan, ← sizesAfter,
    Prog.states_bind_ok layout, List.mem_append, List.mem_append]
  apply or_congr_right
  apply or_congr_right
  constructor
  · intro mem
    rcases List.mem_cons.mp mem with same | mem
    · exact same
    · exact List.mem_singleton.mp mem
  · rintro rfl
    exact List.mem_cons_self

theorem first_init_consistent (few : (numbers buf).length ≤ 10) (down : m.initCheck = 0)
    (mem : s ∈ (initChannels buf).states m) (up : s.initCheck = 1) : Consistent s := by
  have apart : ∀ v : UInt32,
      ¬ ∀ v' : UInt32, (Access.store .initCheck v : Access Cell Cell.Val) ≠ .store .initCheck v' :=
    fun v all => all v rfl
  rcases (mem_init_states few).mp mem with scan | layout | rfl
  · have flag : s.initCheck = m.initCheck :=
      (storeSizes_flagless (numbers buf) 0).states_get (d := .initCheck) apart scan
    rw [flag, down] at up
    cases up
  · have flag : s.initCheck = m.initCheck :=
      (layoutLoop_flagless (List.finRange 10) 0).states_get (d := .initCheck) apart layout
    rw [flag, down] at up
    cases up
  · exact laidOut_consistent m _

theorem later_init_consistent_iff (few : (numbers buf).length ≤ 10) (size : Channel → UInt32) :
    (∀ s ∈ (initChannels buf).states (laidOut m size), s.initCheck = 1 → Consistent s) ↔
      ∀ c, c ≠ 9 → sizesAfter buf size c = size c := by
  constructor
  · intro safe
    -- the state behind the scan has the new sizes over the old starts
    have scan := storeSizes_run (numbers buf) 0 (laidOut m size) (by omega)
    have consistent : Consistent
        { laidOut m size with
          channelSize := sizesFrom (numbers buf) 0 (laidOut m size).channelSize } := by
      rcases Prog.run_mem_states scan with same | mem
      · rw [same]
        exact laidOut_consistent m size
      · exact safe _ ((mem_init_states few).mpr (Or.inl mem)) rfl
    have starts : startWords (sizesAfter buf size) = startWords size := by
      funext c
      exact (consistent.start c).symm
    exact (startWords_inj_iff _ _).mp starts
  · intro kept s mem _
    have starts := (startWords_inj_iff _ _).mpr kept
    rcases (mem_init_states few).mp mem with scan | layout | rfl
    · obtain ⟨new, rfl, same⟩ := storeSizes_states (m := laidOut m size) kept scan
      refine ⟨fun c => ?_, fun _ => UInt32.zero_le⟩
      have early : startWords new = startWords size := (startWords_inj_iff _ _).mpr same
      rw [early]
      rfl
    · have agrees := agrees_startWords (sizesAfter buf size)
      rw [starts] at agrees
      obtain ⟨sizes, start, index⟩ := layoutLoop_states agrees (fun _ => rfl) layout
      refine ⟨fun c => ?_, fun c => ?_⟩
      · rw [start, sizes]
        exact (congrFun starts c).symm
      · rw [index]
        exact UInt32.zero_le
    · exact laidOut_consistent _ _

end init

theorem inits_cons_safe {buf : Text} {rest : List Text} {m : Ram}
    (few : (numbers buf).length ≤ 10) : SafelyPublished (buf :: rest) m ↔
      (∀ s ∈ (initChannels buf).states m, s.initCheck = 1 → Consistent s) ∧
        SafelyPublished rest (laidOut m (sizesAfter buf m.channelSize)) := by
  unfold SafelyPublished
  rw [inits, Prog.states_bind_ok (initChannels_run buf m few)]
  simp only [List.mem_append, or_imp, forall_and]

theorem laidOut_safe_iff {bufs : List Text} (m : Ram) (size : Channel → UInt32)
    (few : ∀ buf ∈ bufs, (numbers buf).length ≤ 10) :
    SafelyPublished bufs (laidOut m size) ↔ KeepsSizes bufs size := by
  induction bufs generalizing m size with
  | nil => exact ⟨fun _ => trivial, fun _ s mem => by cases mem⟩
  | cons buf rest ih =>
    have here := few buf (by simp)
    rw [inits_cons_safe here, later_init_consistent_iff here, KeepsSizes]
    exact and_congr_right fun _ => ih _ _ fun text mem => few text (by simp [mem])

theorem cleared_safe_iff {bufs : List Text} {m : Ram} (cleared : Cleared m)
    (few : ∀ buf ∈ bufs, (numbers buf).length ≤ 10) :
    SafelyPublished bufs m ↔ LaterKeepSizes bufs := by
  cases bufs with
  | nil => exact ⟨fun _ => trivial, fun _ s mem => by cases mem⟩
  | cons first rest =>
    have here := few first (by simp)
    have quiet : ∀ s ∈ (initChannels first).states m, s.initCheck = 1 → Consistent s :=
      fun s mem => first_init_consistent here cleared.initCheck mem
    rw [inits_cons_safe here, and_iff_right quiet, cleared.channelSize, LaterKeepSizes]
    exact laidOut_safe_iff m _ fun text mem => few text (by simp [mem])

/-- Over all runs of inits after probe: the layout is consistent whenever the flag is up
    exactly when every init after the first leaves the first nine sizes as they are. -/
theorem safe_publication_iff (m : Ram) (probed : AfterProbe m) (bufs : List Text)
    (few : ∀ buf ∈ bufs, (numbers buf).length ≤ 10) :
    SafelyPublished bufs m ↔ LaterKeepSizes bufs :=
  cleared_safe_iff probed.cleared few

/-- `5 5` twice. -/
theorem safe_publication_same_text :
    ∃ m, AfterProbe m ∧ SafelyPublished [[53, 32, 53], [53, 32, 53]] m := by
  obtain ⟨m, probed⟩ := exists_afterProbe
  refine ⟨m, probed, (safe_publication_iff m probed _ (by decide)).mpr ?_⟩
  exact ⟨by decide, trivial⟩

/-- `5 5` and then `6 5`: behind the first store of the second init the flag is up, the
    first size is 6 and the second ring still starts at 5. -/
theorem unsafe_publication_new_text :
    ∃ m, AfterProbe m ∧ ¬ SafelyPublished [[53, 32, 53], [54, 32, 53]] m := by
  obtain ⟨m, probed⟩ := exists_afterProbe
  refine ⟨m, probed, fun safe => ?_⟩
  have kept := ((cleared_safe_iff probed.cleared (by decide)).mp safe).1 0 (by decide)
  exact absurd kept (by decide)

end PruBridge.Driver
