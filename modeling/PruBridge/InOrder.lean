import PruBridge.DeliveryCalls
import PruBridge.RaceSafety

/-!
While no write meets a full channel and no update of a counter is lost, a channel is a queue
under every interleaving: the bytes its reader takes are the bytes its writer stored, in order.
-/
namespace PruBridge
open AtomicProgram

section calls
variable {ρ : Roles} {size start : Channel → UInt32} {p : Side} {k : Op}

theorem Carries.whole {d : Channel} {α : Type} {body : Code α}
    (does : Carries ρ size start p k (Amid ρ p d {}) body fun _ => Amid ρ p d {}) :
    Carries ρ size start p k (fun w => ∀ e, (tally p e w.log).Even) body
      fun _ w => ∀ e, (tally p e w.log).Even :=
  Triple.weaken (does.strengthen fun _ _ amid => amid.even) fun _ _ even => Amid.of_even even

theorem body_carries (regions : Regions ρ size start) (ok : ρ.Allowed p k) :
    Carries ρ size start p k (fun w => ∀ d, (tally p d w.log).Even) k.body
      fun _ w => ∀ d, (tally p d w.log).Even := by
  have stable : Stable (delivery ρ size start) p fun w => ∀ d, (tally p d w.log).Even :=
    fun w v even moved d => (delivery ρ size start).idle_stable p w v even moved d
  have used := ok.uses
  cases k with
  | driverWrite c b =>
    apply Triple.map fun _ => stable
    exact (driver_write_carries used rfl (ok.writer trivial) regions trivial rfl).whole
  | driverRead c =>
    apply Triple.map fun _ => stable
    exact (driver_read_carries used rfl (ok.reader id) regions id rfl).whole
  | firmwareWrite c pruData length =>
    apply Triple.map fun _ => stable
    exact (firmware_write_carries used rfl (ok.writer trivial) regions trivial rfl).whole
  | firmwareRead c length =>
    apply Triple.map fun _ => stable
    exact (firmware_read_carries used rfl (ok.reader id) regions id ok.nonneg rfl).whole

theorem delivery_respected (regions : Regions ρ size start) :
    Respects (delivery ρ size start) (parties ρ) := by
  intro p k w ok rings even
  have entered : Rings ρ size start (w.enter (parties ρ) k).mem (w.enter (parties ρ) k).log := by
    cases k <;> exact ⟨rings.sizes, rings.starts, rings.tail, rings.head, rings.cells,
      rings.counted⟩
  refine ⟨entered, fun q _ => ?_, body_carries regions ok _ entered even⟩
  cases k <;> exact ⟨⟨[], rfl, by simp⟩, fun _ _ _ => rfl, fun _ _ _ => rfl,
    fun _ _ _ _ => UInt32.le_refl _⟩

end calls

theorem storedList_grows (p : Side) (d : Channel) (e : Entry) (log : List Entry) :
    storedList p d log <+: storedList p d (e :: log) := by
  rw [storedList]
  split
  · split
    · exact List.prefix_append _ _
    · exact List.prefix_rfl
  · exact List.prefix_rfl

theorem takenList_store (p : Side) (d : Channel) {e : Entry} {log : List Entry}
    (not : ∀ x, e.access ≠ .load (.data x)) : takenList p d (e :: log) = takenList p d log := by
  rw [takenList]
  split
  · rename_i x same
    exact absurd same (not x)
  · rfl

theorem prefix_next {α : Type} {xs ys : List α} {x : α} (before : xs <+: ys)
    (next : ys[xs.length]? = some x) : xs ++ [x] <+: ys := by
  have whole := List.take_add_one (l := ys) (i := xs.length)
  rw [next, ← List.prefix_iff_eq_take.mp before] at whole
  have top := List.take_prefix (xs.length + 1) ys
  rwa [whole] at top

theorem taken_step {ρ : Roles} {size : Channel → UInt32} {w : Shared} {p : Side} {k : Op}
    {d : Channel} {a : Access Cell Cell.Val} (room : FindsRoom size d w.log)
    (sound : Sound ρ d (w.step p k a).log)
    (may : ∀ x, a = .load (.data x) → TakesNext ρ size p k x w)
    (before : takenList (ρ.reader d) d w.log <+: storedList (ρ.writer d) d w.log) :
    takenList (ρ.reader d) d (w.step p k a).log <+:
      storedList (ρ.writer d) d (w.step p k a).log := by
  have grown := before.trans (storedList_grows (ρ.writer d) d ⟨p, k, w.mem, a⟩ w.log)
  by_cases takes : ∃ x, a = .load (.data x) ∧ Takes (ρ.reader d) d ⟨p, k, w.mem, a⟩ w.log
  · obtain ⟨x, rfl, takes⟩ := takes
    have longer : takenList (ρ.reader d) d (w.step p k (.load (.data x))).log =
        takenList (ρ.reader d) d w.log ++ [w.mem.data x] := if_pos takes
    obtain ⟨mine, read, here, settled⟩ := takes
    replace mine : p = ρ.reader d := mine
    replace here : k.channel = d := here
    subst mine
    subst here
    obtain ⟨length, next⟩ := may x rfl read settled
    have byte := next room sound.2.2.2 sound.1
    rw [← length] at byte
    rw [longer]
    exact prefix_next before byte
  · have same : takenList (ρ.reader d) d (w.step p k a).log = takenList (ρ.reader d) d w.log := by
      cases a with
      | load c => cases c with
        | data x => exact if_neg fun here => takes ⟨x, rfl, here⟩
        | _ => rfl
      | store c v => exact takenList_store _ _ nofun
    rw [same]
    exact grown

abbrev everyChannel (writer reader : Channel → Side) : Roles := ⟨fun _ => True, writer, reader⟩

theorem LeftByInit.regions {L : Layout} {m : Ram} {writer reader : Channel → Side}
    (left : LeftByInit L m) :
    Regions (everyChannel writer reader) m.channelSize m.bufferStart := by
  constructor
  · intro d _
    rw [left.size]
    exact L.positive d
  · intro c d x other here
    exact left.laid.regions_disjoint other here

abbrev Calls := Clients Side Op Cell Cell.Val Fault Ret Ram

/-- What the calls of a system have to keep for its channels to be queues: the protocol of the
    counters and the one of the bytes. -/
structure Orderly (ρ : Roles) (size start : Channel → UInt32) (C : Calls) : Prop where
  counts : Respects (bridge ρ size start) C
  bytes : Respects (delivery ρ size start) C

theorem LeftByInit.orderly {L : Layout} {m : Ram} {writer reader : Channel → Side}
    (left : LeftByInit L m) : Orderly (everyChannel writer reader) m.channelSize m.bufferStart
      (parties (everyChannel writer reader)) := by
  refine ⟨bridge_respected fun d _ => ?_, delivery_respected left.regions⟩
  rw [left.size]
  exact L.size_small d

section runs
variable {L : Layout} {m : Ram} {writer reader : Channel → Side} {s : State} {C : Calls}
  (left : LeftByInit L m)
  (orderly : Orderly (everyChannel writer reader) m.channelSize m.bufferStart C)
  (reach : Reach C (Conf.start m) s)
include left orderly reach

theorem Orderly.counted :
    Holds (bridge (everyChannel writer reader) m.channelSize m.bufferStart) s := by
  apply AtomicProgram.reach_holds orderly.counts reach
  apply left.init.holds
  intro d _
  rw [left.size]
  exact L.positive d

theorem Orderly.carries :
    Holds (delivery (everyChannel writer reader) m.channelSize m.bufferStart) s := by
  apply AtomicProgram.reach_holds orderly.bytes reach
  refine ⟨⟨rfl, rfl, ?_, ?_, ?_, ?_⟩, fun p d => ⟨Nat.le_refl 0, rfl, rfl, rfl⟩⟩
  · intro d _
    change (m.tail d).toNat = 0 % _
    rw [(left.init.empty d).2.2, Nat.zero_mod]
    rfl
  · intro d _
    change (m.head d).toNat = 0 % _
    rw [(left.init.empty d).2.1, Nat.zero_mod]
    rfl
  · intro d _ j b found
    cases found
  · exact fun d _ => Nat.le_refl 0

/-- What the protocol of the counters gives the protocol of the bytes. -/
theorem Orderly.sound {d : Channel} (room : FindsRoom m.channelSize d s.world.log)
    (undisturbed : Undisturbed d s.world.log) :
    Sound (everyChannel writer reader) d s.world.log := by
  induction reach with
  | refl => trivial
  | tail before step ih =>
    cases step with
    | enter i k idle ok => exact ih room undisturbed
    | leave i k r inside => exact ih room undisturbed
    | access i k p q a inside next =>
      have holds := Orderly.counted left orderly before
      have inv : Inv _ m.channelSize m.bufferStart _ := holds.1
      have rings : Rings _ m.channelSize m.bufferStart _ _ :=
        (Orderly.carries left orderly before).1
      refine ⟨inv.counter d trivial room.2 undisturbed.2, rings.counted d trivial, ?_,
        ih room.2 undisturbed.2⟩
      intro other
      have moved : Rely _ _ _ _ := holds_rely holds inside next (Ne.symm other)
      exact moved.raises d trivial rfl

theorem Orderly.taken {d : Channel} (room : FindsRoom m.channelSize d s.world.log)
    (undisturbed : Undisturbed d s.world.log) :
    takenList (reader d) d s.world.log <+: storedList (writer d) d s.world.log := by
  induction reach with
  | refl => exact List.prefix_rfl
  | tail before step ih =>
    have sound := Orderly.sound left orderly (.tail before step) room undisturbed
    cases step with
    | enter i k idle ok => exact ih room undisturbed
    | leave i k r inside => exact ih room undisturbed
    | access i k p q a inside next =>
      have may := holds_access (Orderly.carries left orderly before) inside next
      exact taken_step room.2 sound may (ih room.2 undisturbed.2)

theorem Orderly.waiting {d : Channel} (room : FindsRoom m.channelSize d s.world.log)
    (undisturbed : Undisturbed d s.world.log) (quiet : s.Quiet) : unread s.world.mem d =
      (storedList (writer d) d s.world.log).drop (takenList (reader d) d s.world.log).length := by
  have holds := Orderly.counted left orderly reach
  have carries := Orderly.carries left orderly reach
  have inv : Inv (everyChannel writer reader) m.channelSize m.bufferStart s.world := holds.1
  have rings : Rings (everyChannel writer reader) m.channelSize m.bufferStart s.world.mem
    s.world.log := carries.1
  have counts : Books m.channelSize (writer d) 0 0 s.world := by
    have stands := holds.2 (writer d)
    rw [quiet (writer d)] at stands
    exact stands
  have even : (tally (reader d) d s.world.log).Even := by
    have stands := carries.2 (reader d)
    rw [quiet (reader d)] at stands
    exact stands d
  have stored := counts.written d room
  have counter : (s.world.mem.indexData d).toNat + total (releasedBy (reader d) d) s.world.log =
      total (countedBy (writer d) d) s.world.log := inv.counter d trivial room undisturbed
  have length := storedList_length (writer d) d s.world.log
  have removed := even.removed
  have taken := even.taken
  have bound := UInt32.le_iff_toNat_le.mp (inv.index d trivial)
  simp only [tally, Pi.zero_apply, Int.add_zero] at stored removed taken
  have waits : (storedList (writer d) d s.world.log).length =
      total (removedBy (reader d) d) s.world.log + (s.world.mem.indexData d).toNat := by
    omega
  rw [taken, unread, unreadCells, List.map_map]
  apply List.ext_getElem
  · rw [List.length_map, List.length_range, List.length_drop]
    omega
  · intro j here there
    rw [List.length_map, List.length_range] at here
    rw [List.getElem_map, List.getElem_range, List.getElem_drop]
    have inside : total (removedBy (reader d) d) s.world.log + j <
        (storedList (writer d) d s.world.log).length := by
      omega
    have cell := rings.cells d trivial _ _ (List.getElem?_eq_getElem inside) (by
      change (storedList (writer d) d s.world.log).length ≤ _
      omega)
    rw [Function.comp_apply, rings.starts, rings.sizes, rings.head d trivial, Nat.mod_add_mod]
    exact cell

/-- A channel of such a system is a queue while no write meets it full and no update of its
    counter is lost. -/
theorem Orderly.in_order {d : Channel} (room : FindsRoom m.channelSize d s.world.log)
    (undisturbed : Undisturbed d s.world.log) :
    takenList (reader d) d s.world.log <+: storedList (writer d) d s.world.log ∧
      (s.Quiet → takenList (reader d) d s.world.log ++ unread s.world.mem d =
        storedList (writer d) d s.world.log) := by
  have before := Orderly.taken left orderly reach room undisturbed
  refine ⟨before, fun quiet => ?_⟩
  rw [Orderly.waiting left orderly reach room undisturbed quiet]
  exact (List.prefix_append_drop before).symm

end runs

/-- No byte is lost, repeated or put out of order by any interleaving in which every write
    finds room and no counter is changed between a load and the store that depends on it: what
    the reader of a channel took is what its writer stored, as far as it was read, and between
    calls the rest waits in the ring. -/
theorem race_in_order (L : Layout) (m : Ram) (left : LeftByInit L m)
    (writer reader : Channel → Side) (s : State)
    (reach : Reach (parties ⟨fun _ => True, writer, reader⟩) (Conf.start m) s) (d : Channel)
    (room : FindsRoom m.channelSize d s.world.log) (undisturbed : Undisturbed d s.world.log) :
    takenList (reader d) d s.world.log <+: storedList (writer d) d s.world.log ∧
      (s.Quiet → takenList (reader d) d s.world.log ++ unread s.world.mem d =
        storedList (writer d) d s.world.log) :=
  Orderly.in_order left left.orderly reach room undisturbed

/-- The PRU takes the first byte after the ARM has stored the second one and not counted it. -/
theorem race_in_order_stored : ∃ s,
    Reach (parties (armToPru fun _ => True)) (Conf.start pairsRam) s ∧
      takenList .pru 0 s.world.log ++ unread s.world.mem 0 = [5, 6] := by
  obtain ⟨s, reach, room, undisturbed, quiet, stored⟩ := schedule_finds (s := Conf.start pairsRam) _
    (fun s : State => FindsRoom pairsRam.channelSize 0 s.world.log ∧
      Undisturbed 0 s.world.log ∧ s.Quiet ∧ storedList .arm 0 s.world.log = [5, 6])
    (readDuring_allowed (fun _ => True) trivial 3) (by decide)
  refine ⟨s, reach, ?_⟩
  rw [← stored]
  exact (race_in_order pairs pairsRam pairsRam_left (fun _ => .arm) (fun _ => .pru) s reach 0 room
    undisturbed).2 quiet

end PruBridge
