import PruBridge.Projection
import PruBridge.RaceSafety

/-!
Neither side locks the counter: each loads it and stores it back in separate accesses.
The counter is right as long as it does not change between the two.
-/
namespace PruBridge
open AtomicProgram

theorem books_of_quiet {ρ : Roles} {size start : Channel → UInt32}
    {s : State} (holds : Holds (bridge ρ size start) s)
    (quiet : s.Quiet) (p : Side) : Books size p 0 0 s.world := by
  have stands := holds.2 p
  rw [quiet p] at stands
  exact stands

theorem staysInside_step {w : Shared} {p : Side} {k : Op} {a : Access Cell Cell.Val}
    (inside : StaysInside w.log) (here : ∀ x ∈ dataCell a, x.toNat < totalBufferSize) :
    StaysInside (w.step p k a).log := by
  intro x mem
  obtain ⟨e, among, cell⟩ := List.mem_filterMap.mp mem
  rcases List.mem_cons.mp among with rfl | before
  · exact here x cell
  · exact inside x (List.mem_filterMap.mpr ⟨e, before, cell⟩)

theorem rings_stay_inside {ρ : Roles} {m : Ram} (init : AfterInit m)
    (pos : ∀ d, ρ.uses d → 0 < (m.channelSize d).toNat)
    (small : ∀ d, ρ.uses d → (m.channelSize d).toNat < 2 ^ 31)
    (rings : ∀ d, ρ.uses d →
      (m.bufferStart d).toNat + (m.channelSize d).toNat ≤ totalBufferSize)
    {s : State} (reach : Reach (parties ρ) (Conf.start m) s) : StaysInside s.world.log := by
  induction reach with
  | refl => exact fun _ mem => by cases mem
  | tail before step ih =>
    cases step with
    | enter p k idle ok => exact ih
    | access p k body rest a within next =>
      apply staysInside_step ih
      intro x mem
      have used := (reach_inside before within).1.uses
      have holds := init.reach_holds pos small before
      obtain ⟨j, less, same⟩ := holds_access holds within next x mem
      have ring := rings k.channel used
      have word : (UInt32.ofNat j).toNat = j :=
        UInt32.toNat_ofNat_of_lt' (Nat.lt_trans less (m.channelSize k.channel).toNat_lt)
      rw [same, UInt32.toNat_add, word]
      simp only [totalBufferSize] at *
      omega
    | leave p k r within => exact ih

/-- Parties on rings of `ring->data` stay in it. And in a run that stays in it, whenever both
    parties are between two calls, the counter is what the writer stored less what the reader
    removed, if no byte met the channel full and nobody changed the counter between a load and
    a store of the other party. -/
theorem fill_counter_undisturbed (ρ : Roles) (m : Ram) (init : AfterInit m)
    (pos : ∀ d, ρ.uses d → 0 < (m.channelSize d).toNat)
    (small : ∀ d, ρ.uses d → (m.channelSize d).toNat < 2 ^ 31) (c : Channel) (used : ρ.uses c)
    (s : State) (reach : Reach (parties ρ) (Conf.start m) s) :
    ((∀ d, ρ.uses d → (m.bufferStart d).toNat + (m.channelSize d).toNat ≤ totalBufferSize) →
      StaysInside s.world.log) ∧
    (StaysInside s.world.log → s.Quiet → FindsRoom m.channelSize c s.world.log →
      Undisturbed c s.world.log →
        ((s.world.mem.indexData c).toNat : Int) =
          total (storedBy (ρ.writer c) c) s.world.log -
            total (removedBy (ρ.reader c) c) s.world.log) := by
  refine ⟨fun rings => rings_stay_inside init pos small rings reach, ?_⟩
  intro _ quiet room undisturbed
  have holds := init.reach_holds pos small reach
  have counter := holds.1.counter c used room undisturbed
  have stored := (books_of_quiet holds quiet (ρ.writer c)).written c room
  have removed := (books_of_quiet holds quiet (ρ.reader c)).read c
  simp only [Pi.zero_apply, Int.add_zero] at stored removed
  rw [stored, removed, ← counter]
  omega

/-- The ring of two bytes never overflows, and the read of one byte is lost. -/
theorem fill_counter_lost_update :
    ∃ s, Reach (parties (armToPru fun d => d = 0)) (Conf.start pairsRam) s ∧ s.Quiet ∧
      StaysInside s.world.log ∧ FindsRoom pairsRam.channelSize 0 s.world.log ∧
      s.world.mem.indexData 0 = 2 ∧ ((s.world.mem.indexData 0).toNat : Int) ≠
        total (storedBy .arm 0) s.world.log - total (removedBy .pru 0) s.world.log :=
  schedule_finds _ (fun s : State => s.Quiet ∧ StaysInside s.world.log ∧
    FindsRoom pairsRam.channelSize 0 s.world.log ∧
    s.world.mem.indexData 0 = 2 ∧ ((s.world.mem.indexData 0).toNat : Int) ≠
      total (storedBy .arm 0) s.world.log - total (removedBy .pru 0) s.world.log)
    (readDuring_allowed (fun d => d = 0) rfl 6) (by decide)

/-- The same read one access earlier, between the two loads of the counter. -/
theorem fill_counter_undisturbed_read : ∃ s,
    schedule (parties (armToPru fun d => d = 0)) (readDuring 5) (Conf.start pairsRam) = some s ∧
      s.Quiet ∧ StaysInside s.world.log ∧ FindsRoom pairsRam.channelSize 0 s.world.log ∧
      Undisturbed 0 s.world.log ∧ total (storedBy .arm 0) s.world.log = 2 ∧
      total (removedBy .pru 0) s.world.log = 1 ∧
      ((s.world.mem.indexData 0).toNat : Int) =
        total (storedBy .arm 0) s.world.log - total (removedBy .pru 0) s.world.log := by
  have run : (schedule (parties (armToPru fun d => d = 0)) (readDuring 5)
      (Conf.start pairsRam)).map (fun s => decide (s.Quiet ∧ StaysInside s.world.log ∧
        FindsRoom pairsRam.channelSize 0 s.world.log ∧ Undisturbed 0 s.world.log ∧
        total (storedBy .arm 0) s.world.log = 2 ∧ total (removedBy .pru 0) s.world.log = 1)) =
      some true := by decide
  obtain ⟨s, done, facts⟩ := Option.map_eq_some_iff.mp run
  obtain ⟨quiet, inside, room, undisturbed, stored, removed⟩ := of_decide_eq_true facts
  have reach := schedule_reach _ (readDuring_allowed (fun d => d = 0) rfl 5) done
  have counts := (fill_counter_undisturbed (armToPru fun d => d = 0) pairsRam
    pairsRam_left.init (fun _ _ => show 0 < (2 : UInt32).toNat by decide)
    (fun _ _ => show (2 : UInt32).toNat < 2 ^ 31 by decide) 0 rfl s reach).2
  exact ⟨s, done, quiet, inside, room, undisturbed, stored, removed,
    counts inside quiet room undisturbed⟩

end PruBridge
