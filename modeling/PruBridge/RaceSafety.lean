import PruBridge.PartyCalls

/-!
Every interleaving of the two parties keeps the counters, heads and tails in range and
the ring accesses in their rings, whatever updates of the counters get lost.
-/
namespace PruBridge
open AtomicProgram

section calls
variable {ρ : Roles} {size start : Channel → UInt32} {p : Side} {k : Op}

theorem writing_of_idle {w : Shared} (inv : Inv ρ size start w) {d : Channel} (used : ρ.uses d)
    (books : Books size p 0 0 w) : Writing size p d 0 w := by
  refine ⟨?_, fun _ => UInt32.le_iff_toNat_le.mp (inv.index d used)⟩
  rw [Int.natCast_zero, only_zero]
  exact books

theorem Writing.idle {d : Channel} {w : Shared} (writing : Writing size p d 0 w) :
    Books size p 0 0 w := by
  have books := writing.books
  rwa [Int.natCast_zero, only_zero] at books

theorem reading_of_idle {d : Channel} {w : Shared} (books : Books size p 0 0 w) :
    Reading size p d 0 0 w := by
  refine ⟨?_, Nat.zero_le _⟩
  rw [only_zero]
  exact books

theorem Reading.idle {d : Channel} {low : Nat} {w : Shared} (reading : Reading size p d 0 low w) :
    Books size p 0 0 w := by
  have books := reading.books
  rwa [only_zero] at books

theorem body_does (small : ∀ d, ρ.uses d → (size d).toNat < 2 ^ 31) (ok : ρ.Allowed p k) :
    Does ρ size start p k (Books size p 0 0) k.body fun _ => Books size p 0 0 := by
  have stable : Stable (bridge ρ size start) p (Books size p 0 0) :=
    fun _ _ books moved => books.rely moved
  have used := ok.uses
  have enough := small _ used
  cases k with
  | driverWrite c b =>
    refine Triple.map (fun _ => stable) ?_
    refine (Triple.weaken ?_ fun w inv books => writing_of_idle inv used books)
    exact (driver_write_does used (ok.writer trivial) rfl trivial rfl).strengthen
      fun _ _ writing => writing.idle
  | driverRead c =>
    refine Triple.map (fun _ => stable) ?_
    refine (Triple.weaken ?_ fun w _ books => reading_of_idle (d := c) books)
    exact (driver_read_does used (ok.reader id) rfl id rfl).strengthen
      fun _ _ reading => reading.idle
  | firmwareWrite c pruData length =>
    refine Triple.map (fun _ => stable) ?_
    refine (Triple.weaken ?_ fun w inv books => writing_of_idle inv used books)
    exact (firmware_write_does used (ok.writer trivial) rfl trivial ok.nonneg enough rfl).strengthen
      fun _ _ writing => writing.idle
  | firmwareRead c length =>
    refine Triple.map (fun _ => stable) ?_
    refine (Triple.weaken ?_ fun w _ books => reading_of_idle (d := c) books)
    exact (firmware_read_does used (ok.reader id) rfl id ok.nonneg enough rfl).strengthen
      fun _ _ reading => reading.idle

theorem bridge_respected (small : ∀ d, ρ.uses d → (size d).toNat < 2 ^ 31) :
    Respects (bridge ρ size start) (parties ρ) := by
  intro p k w ok inv idle
  have entered : Inv ρ size start (w.enter (parties ρ) k) := by
    cases k <;> exact ⟨inv.sizes, inv.starts, inv.head, inv.tail, inv.index, inv.counter⟩
  have books : Books size p 0 0 (w.enter (parties ρ) k) := ⟨idle.written, idle.read⟩
  refine ⟨entered, fun q _ => ?_, body_does small ok _ entered books⟩
  cases k <;> exact ⟨⟨[], rfl, by simp, fun _ _ => rfl⟩, fun _ _ _ => UInt32.le_refl _,
    fun _ _ _ => UInt32.le_refl _⟩

end calls

theorem AfterInit.holds {m : Ram} (init : AfterInit m) {ρ : Roles}
    (pos : ∀ d, ρ.uses d → 0 < (m.channelSize d).toNat) :
    Holds (bridge ρ m.channelSize m.bufferStart)
      (Conf.start m : State) := by
  refine ⟨⟨rfl, rfl, ?_, ?_, ?_, ?_⟩, fun p => ⟨fun _ _ => rfl, fun _ => rfl⟩⟩
  · intro d used
    change m.head d < _
    rw [(init.empty d).2.1]
    exact UInt32.lt_iff_toNat_lt.mpr (pos d used)
  · intro d used
    change m.tail d < _
    rw [(init.empty d).2.2]
    exact UInt32.lt_iff_toNat_lt.mpr (pos d used)
  · intro d _
    change m.indexData d ≤ _
    rw [(init.empty d).1]
    exact UInt32.zero_le
  · intro d _ _ _
    change (m.indexData d).toNat + 0 = 0
    rw [(init.empty d).1]
    rfl

theorem AfterInit.reach_holds {m : Ram} (init : AfterInit m) {ρ : Roles}
    (pos : ∀ d, ρ.uses d → 0 < (m.channelSize d).toNat)
    (small : ∀ d, ρ.uses d → (m.channelSize d).toNat < 2 ^ 31)
    {s : State} (reach : Reach (parties ρ) (Conf.start m) s) :
    Holds (bridge ρ m.channelSize m.bufferStart) s :=
  AtomicProgram.reach_holds (bridge_respected small) reach (init.holds pos)

theorem LeftByInit.reach_holds {L : Layout} {m : Ram} (left : LeftByInit L m)
    {writer reader : Channel → Side} {s : State}
    (reach : Reach (parties ⟨fun _ => True, writer, reader⟩) (Conf.start m) s) :
    Holds (bridge ⟨fun _ => True, writer, reader⟩ m.channelSize m.bufferStart) s := by
  apply left.init.reach_holds _ _ reach
  · intro d _
    rw [left.size]
    exact L.positive d
  · intro d _
    rw [left.size]
    exact L.size_small d

/-- The words of every channel are in range, and the next access of every party that is
    inside a call touches ring bytes of its own channel only. -/
structure InRange (L : Layout) (s : State) : Prop where
  size : ∀ c, (s.world.mem.channelSize c).toNat = L.size c
  index : ∀ c, (s.world.mem.indexData c).toNat ≤ L.size c
  head : ∀ c, (s.world.mem.head c).toNat < L.size c
  tail : ∀ c, (s.world.mem.tail c).toNat < L.size c
  data : ∀ p op body a rest x, s.busy p = some (op, body) →
    body.next s.world.mem = some (a, rest) → x ∈ dataCell a →
      L.start op.channel ≤ x.toNat ∧ x.toNat < L.start op.channel + L.size op.channel ∧
        x.toNat < totalBufferSize

/-- Range safety of every interleaving of any calls, for any choice of one writer and one
    reader for each channel. -/
theorem race_range_safety (L : Layout) (m : Ram) (left : LeftByInit L m)
    (writer reader : Channel → Side) (s : State)
    (reach : Reach (parties ⟨fun _ => True, writer, reader⟩) (Conf.start m) s) : InRange L s := by
  have laid := left.laid
  have pos : ∀ d : Channel, True → 0 < (m.channelSize d).toNat := by
    intro d _
    rw [left.size]
    exact L.positive d
  have small : ∀ d : Channel, True → (m.channelSize d).toNat < 2 ^ 31 := by
    intro d _
    rw [left.size]
    exact L.size_small d
  have holds := left.init.reach_holds pos small reach
  have inv : Inv _ _ _ s.world := holds.1
  constructor
  · intro c
    rw [inv.sizes, left.size]
  · intro c
    rw [← left.size]
    exact UInt32.le_iff_toNat_le.mp (inv.index c trivial)
  · intro c
    rw [← left.size]
    exact UInt32.lt_iff_toNat_lt.mp (inv.head c trivial)
  · intro c
    rw [← left.size]
    exact UInt32.lt_iff_toNat_lt.mp (inv.tail c trivial)
  · intro p op body a rest x inside next mem
    have ring : InRegion m op.channel x := holds_access holds inside next x mem
    have bounds := laid.in_region ring
    have top := L.end_le op.channel
    exact ⟨bounds.1, bounds.2, by omega⟩

/-- The ARM stores two bytes; the PRU reads the first one after `n` of the 16 accesses by
    which the ARM stores the second. The counter is loaded in the fourth and the sixth, and
    stored in the seventh. -/
def readDuring (n : Nat) : List (Choice Side Op) :=
  [.enter .arm (.driverWrite 0 5), .go .arm 16, .leave .arm,
    .enter .arm (.driverWrite 0 6), .go .arm n,
    .enter .pru (.firmwareRead 0 1), .go .pru 10, .leave .pru,
    .go .arm (16 - n), .leave .arm]

def armToPru (uses : Channel → Prop) : Roles := ⟨uses, fun _ => .arm, fun _ => .pru⟩

theorem readDuring_allowed (uses : Channel → Prop) (used : uses 0) (n : Nat) (p : Side) (k : Op)
    (entered : Choice.enter p k ∈ readDuring n) : (parties (armToPru uses)).allowed p k := by
  simp only [readDuring, List.mem_cons, List.not_mem_nil, Choice.enter.injEq, or_false,
    reduceCtorEq, false_or] at entered
  rcases entered with ⟨rfl, rfl⟩ | ⟨rfl, rfl⟩ | ⟨rfl, rfl⟩
  · exact ⟨used, rfl, trivial, fun _ => rfl, fun no => absurd trivial no⟩
  · exact ⟨used, rfl, trivial, fun _ => rfl, fun no => absurd trivial no⟩
  · exact ⟨used, rfl, by decide, fun no => no.elim, fun _ => rfl⟩

theorem race_range_safety_lost_count :
    ∃ s, Reach (parties (armToPru fun _ => True)) (Conf.start pairsRam) s ∧
      s.world.mem.indexData 0 = 2 ∧ InRange pairs s := by
  obtain ⟨s, reach, index⟩ := schedule_finds (s := Conf.start pairsRam) _
    (fun s : State => s.world.mem.indexData 0 = 2) (readDuring_allowed (fun _ => True) trivial 6)
    (by decide)
  exact ⟨s, reach, index,
    race_range_safety pairs pairsRam pairsRam_left (fun _ => .arm) (fun _ => .pru) s reach⟩

end PruBridge
