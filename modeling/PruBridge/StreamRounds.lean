import PruBridge.InOrder

/-!
The loop of the streaming example (`firmware/Examples/btye_stream_write.c`) while the ARM runs
at the same time: the firmware writes one byte, and only after `check_index` has seen a place
for it. All other calls are those of `Parties`.
-/
namespace PruBridge
open AtomicProgram

/-- `if(check_index(0)) { write_buffer(0,(uint8_t*)(&i),1); i++; }`, for any channel. Whether
    `i` is counted up. -/
def Firmware.streamRound (c : Channel) : Code Bool := do
  let room ← checkIndex c
  if room ≠ 0 then do
    let _ ← writeBuffer c 1
    pure true
  else
    pure false

/-- The calls of the two parties, with every write of the firmware inside of such a round. -/
def Op.streamBody : Op → Code Ret
  | .firmwareWrite c _ _ => (fun _ => .void) <$> Firmware.streamRound c
  | op => op.body

structure Streams (ρ : Roles) (p : Side) (op : Op) : Prop where
  allowed : ρ.Allowed p op
  single : ∀ c pruData length, op = .firmwareWrite c pruData length → length = 1

def streamParties (ρ : Roles) : Calls := ⟨Streams ρ, Op.prepare, Op.streamBody⟩

def HasPlace (ρ : Roles) (size : Channel → UInt32) (p : Side) (k : Op) :
    Access Cell Cell.Val → Shared → Prop
  | .store (.data _) _, w => k.IsWrite → ρ.writer k.channel = .pru →
      FindsRoom size k.channel w.log →
      (w.mem.indexData k.channel).toNat + (total (storedBy p k.channel) w.log -
        total (countedBy p k.channel) w.log) < (size k.channel).toNat
  | _, _ => True

abbrev roomy (ρ : Roles) (size start : Channel → UInt32) :
    Protocol Side Op Cell Cell.Val Ram :=
  (bridge ρ size start).also (HasPlace ρ size)

/-- What `check_index` has seen: places are only taken by the writer itself. -/
structure Seen (size : Channel → UInt32) (p : Side) (d : Channel) (w : Shared) : Prop where
  writing : Writing size p d 0 w
  place : w.mem.indexData d < size d

section round
variable {ρ : Roles} {size start : Channel → UInt32} {p : Side} {k : Op} {d : Channel}

variable (used : ρ.uses d) (role : ρ.writer d = p)
include used role

theorem Seen.stable : Stable (bridge ρ size start) p (Seen size p d) := by
  intro w v seen moved
  have writing : Stable (bridge ρ size start) p (Writing size p d 0) := Writing.stable used role 0
  exact ⟨writing w v seen.writing moved,
    UInt32.lt_of_le_of_lt (moved.lowers d used role) seen.place⟩

omit used role in
theorem Seen.load {w : Shared} (seen : Seen size p d w) (c : Cell) :
    Seen size p d (w.step p k (.load c)) :=
  ⟨⟨seen.writing.books.load c, fun room => seen.writing.room room.2⟩, seen.place⟩

theorem Seen.steady : Steady (bridge ρ size start) p k (Seen size p d) :=
  ⟨Seen.stable used role, fun _ c seen => seen.load c⟩

omit used role in
theorem Seen.hasPlace (here : k.channel = d) {w : Shared} (seen : Seen size p d w) (x : UInt32)
    (v : UInt8) : HasPlace ρ size p k (.store (.data x) v) w := by
  intro _ _ room
  subst here
  have lag := seen.writing.books.written k.channel room
  have less := UInt32.lt_iff_toNat_lt.mp seen.place
  simp only [only, Int.natCast_zero, Function.update_self] at lag
  omega

theorem writeByte_roomy (here : k.channel = d) (write : k.IsWrite) :
    Triple (roomy ρ size start) p k (Seen size p d) (Firmware.writeLoop d 1)
      fun _ => Writing size p d 1 := by
  have steady : Steady (bridge ρ size start) p k (Seen size p d) := Seen.steady used role
  have after : Stable (bridge ρ size start) p (Writing size p d 1) := Writing.stable used role 1
  have cell : Triple (roomy ρ size start) p k (Seen size p d) (tailCell d)
      fun x w => Seen size p d w ∧ InRing size start d x :=
    (tailCell_does used steady).also
      ⟨fun _ => trivial, fun _ => ⟨fun _ => trivial, fun _ => trivial⟩⟩
  have advance : Triple (roomy ρ size start) p k (Writing size p d 1) (advanceTail d)
      fun _ => Writing size p d 1 :=
    (Writing.advance used role 1).also ⟨fun _ => trivial, fun _ => ⟨fun _ => trivial, fun n =>
      (umod_only _ n).bind fun _ => ⟨fun _ => trivial, trivial⟩⟩⟩
  refine cell.bind fun x => ?_
  intro w inv ⟨seen, inside⟩
  refine Triple.skip (c := .pruData 1) steady.also
    (fun _ _ _ => ⟨nofun, trivial⟩) (fun v => ?_) w inv seen
  have stored : Does ρ size start p k (Writing size p d 0) (store (.data x) v)
      fun _ => Writing size p d 1 :=
    store_data_does used role here write inside
      (Triple.ret after fun _ _ writing => writing)
  refine Triple.store steady.stable.also (T := Writing size p d 1) ?_
    (advance.bind fun _ => Triple.ret after.also fun _ _ writing => writing)
  intro w inv seen
  obtain ⟨may, inv', trust, rest⟩ := stored w inv seen.writing w inv (Rely.refl ρ p w)
  exact ⟨⟨may, seen.hasPlace here x v⟩, inv', trust, rest _ inv' (Rely.refl ρ p _)⟩

/-- A counter that only the reader lowers: what `check_index` gives stays a lower bound. -/
theorem checkIndex_does : Does ρ size start p k (Writing size p d 0) (Firmware.checkIndex d)
    fun room w => Writing size p d 0 w ∧ (room ≠ 0 → w.mem.indexData d < size d) := by
  have steady : Steady (bridge ρ size start) p k (Writing size p d 0) := Writing.steady used role 0
  refine Triple.read steady (fun n => n = size d) (fun _ _ _ => nofun)
    (fun w inv _ => congrFun inv.sizes d) fun n same => ?_
  subst same
  refine Triple.load steady.stable (fun i => i ≤ size d)
    (fun i w => Writing size p d 0 w ∧ w.mem.indexData d ≤ i) (fun _ _ _ => nofun)
    (fun w inv writing => ⟨inv.index d used, steady.load w _ writing, UInt32.le_refl _⟩)
    fun i top => ?_
  refine Triple.ret ?_ ?_
  · intro w v ⟨writing, below⟩ moved
    exact ⟨steady.stable w v writing moved, UInt32.le_trans (moved.lowers d used role) below⟩
  · intro w _ ⟨writing, below⟩
    refine ⟨writing, fun some => UInt32.lt_of_le_of_lt below ?_⟩
    rcases UInt32.lt_or_eq_of_le top with less | full
    · exact less
    · rw [full, UInt32.sub_self] at some
      exact absurd rfl some

theorem streamRound_roomy (here : k.channel = d) (write : k.IsWrite) (one : k.writes = 1)
    (small : (size d).toNat < 2 ^ 31) :
    Triple (roomy ρ size start) p k (Writing size p d 0) (Firmware.streamRound d)
      fun _ => Writing size p d 0 := by
  have stable : Stable (bridge ρ size start) p (Writing size p d 0) := Writing.stable used role 0
  have room : Triple (roomy ρ size start) p k (Writing size p d 0) (Firmware.checkIndex d)
      fun room w => Writing size p d 0 w ∧ (room ≠ 0 → w.mem.indexData d < size d) :=
    (checkIndex_does used role).also
      ⟨fun _ => trivial, fun _ => ⟨fun _ => trivial, fun _ => trivial⟩⟩
  have count : Triple (roomy ρ size start) p k (Writing size p d 1) (Firmware.countUp d 1)
      fun _ => Writing size p d 0 := by
    have length : k.writes = (1 : Int32).toNatClampNeg := one
    refine (firmware_countUp_does used role here write (by decide) small length).also ?_
    refine ⟨fun _ => trivial, fun i => ⟨fun _ => trivial, fun n => ?_⟩⟩
    change (ite _ _ _ : Code Unit).Only _
    split
    · exact ⟨fun _ => trivial, fun _ => ⟨fun _ => trivial, trivial⟩⟩
    · exact ⟨fun _ => trivial, fun _ => ⟨fun _ => trivial, trivial⟩⟩
  refine room.bind fun room => ?_
  change Triple _ p k _ (if room ≠ 0 then _ else _) _
  split
  · rename_i some
    have write : Triple (roomy ρ size start) p k (Seen size p d) (Firmware.writeBuffer d 1)
        fun _ => Writing size p d 0 :=
      (writeByte_roomy used role here write).bind fun _ => count.bind fun _ =>
        Triple.ret stable.also fun _ _ writing => writing
    refine Triple.weaken (T := Seen size p d) ?_ fun w _ found => ⟨found.1, found.2 some⟩
    exact write.bind fun _ => Triple.ret stable.also fun _ _ writing => writing
  · exact Triple.weaken (Triple.ret stable.also fun _ _ writing => writing)
      fun _ _ found => found.1

end round

section calls
variable {ρ : Roles} {size start : Channel → UInt32} {p : Side} {k : Op}

theorem HasPlace.other (other : k.IsWrite → ρ.writer k.channel ≠ .pru) (a : Access Cell Cell.Val)
    (w : Shared) : HasPlace ρ size p k a w := by
  cases a with
  | load c => trivial
  | store c v => cases c with
    | data x => exact fun write role => absurd role (other write)
    | _ => trivial

theorem streams_roomy (small : ∀ d, ρ.uses d → (size d).toNat < 2 ^ 31) :
    Respects (roomy ρ size start) (streamParties ρ) := by
  intro p k w ok inv books
  have parties : Respects (bridge ρ size start) (parties ρ) := bridge_respected small
  obtain ⟨entered, trust, safe⟩ := parties p k w ok.allowed inv books
  refine ⟨entered, trust, ?_⟩
  cases k with
  | firmwareWrite c pruData length =>
    have role := ok.allowed.writer trivial
    have one : (Op.firmwareWrite c pruData length).writes = 1 := by
      rw [ok.single c pruData length rfl]
      rfl
    have stable : Stable (bridge ρ size start) p (Books size p 0 0) :=
      fun _ _ books moved => books.rely moved
    have body : Triple (roomy ρ size start) p (.firmwareWrite c pruData length)
        (Books size p 0 0) (Op.firmwareWrite c pruData length).streamBody
        fun _ => Books size p 0 0 := by
      refine Triple.map (fun _ => stable.also) ?_
      refine Triple.weaken ?_ fun w inv books => writing_of_idle inv ok.allowed.uses books
      exact (streamRound_roomy ok.allowed.uses role rfl trivial one
        (small c ok.allowed.uses)).strengthen fun _ _ writing => writing.idle
    exact body _ entered ⟨books.written, books.read⟩
  | driverWrite c b =>
    have arm : p = .arm := ok.allowed.side.symm
    refine safe.also (Prog.only_of_all (HasPlace.other fun write => ?_) _)
    rw [ok.allowed.writer write, arm]
    decide
  | driverRead c =>
    have read : ¬ (Op.driverRead c).IsWrite := id
    exact safe.also (Prog.only_of_all (HasPlace.other fun write => absurd write read) _)
  | firmwareRead c length =>
    have read : ¬ (Op.firmwareRead c length).IsWrite := id
    exact safe.also (Prog.only_of_all (HasPlace.other fun write => absurd write read) _)

theorem streams_carry (regions : Regions ρ size start) :
    Respects (delivery ρ size start) (streamParties ρ) := by
  intro p k w ok rings even
  obtain ⟨entered, trust, safe⟩ := delivery_respected regions p k w ok.allowed rings even
  refine ⟨entered, trust, ?_⟩
  cases k with
  | firmwareWrite c pruData length =>
    have used := ok.allowed.uses
    have one : (Op.firmwareWrite c pruData length).writes = (1 : Int32).toNatClampNeg := by
      rw [ok.single c pruData length rfl]
      rfl
    have stable : Stable (delivery ρ size start) p fun w => ∀ d, (tally p d w.log).Even :=
      fun w v even moved d => (delivery ρ size start).idle_stable p w v even moved d
    have after : Stable (delivery ρ size start) p (Amid ρ p c {}) := Amid.stable used
    have round : Carries ρ size start p (.firmwareWrite c pruData length) (Amid ρ p c {})
        (Firmware.streamRound c) fun _ => Amid ρ p c {} := by
      refine Carries.skip used rfl (c := .channelSize c) nofun fun n => ?_
      refine Carries.skip used rfl (c := .indexData c) nofun fun i => ?_
      change Carries ρ size start p _ _ (if (n - i).toInt32 ≠ 0 then _ else _) _
      split
      · exact (firmware_write_carries used rfl (ok.allowed.writer trivial) regions trivial
          one).bind fun _ => Triple.ret after fun _ _ amid => amid
      · exact Triple.ret after fun _ _ amid => amid
    have body : Carries ρ size start p (.firmwareWrite c pruData length)
        (fun w => ∀ d, (tally p d w.log).Even) (Op.firmwareWrite c pruData length).streamBody
        fun _ w => ∀ d, (tally p d w.log).Even :=
      Triple.map (fun _ => stable) round.whole
    exact body _ entered even
  | driverWrite c b => exact safe
  | driverRead c => exact safe
  | firmwareRead c length => exact safe

end calls

section runs
variable {L : Layout} {m : Ram} {writer reader : Channel → Side} {s : State}

theorem LeftByInit.streams (left : LeftByInit L m) :
    Respects (roomy (everyChannel writer reader) m.channelSize m.bufferStart)
      (streamParties (everyChannel writer reader)) := by
  apply streams_roomy
  intro d _
  rw [left.size]
  exact L.size_small d

theorem storedBy_write {p : Side} {d : Channel} {e : Entry} (some : storedBy p d e ≠ 0) :
    (∃ x v, e.access = .store (.data x) v) ∧ e.call.IsWrite ∧ e.call.channel = d := by
  unfold storedBy at some
  split at some
  · rename_i x v access
    by_cases mine : e.party = p ∧ e.call.IsWrite ∧ e.call.channel = d
    · exact ⟨⟨x, v, access⟩, mine.2⟩
    · exact absurd (if_neg mine) some
  · exact absurd rfl some

theorem LeftByInit.finds_room (left : LeftByInit L m)
    (reach : Reach (streamParties (everyChannel writer reader)) (Conf.start m) s) {d : Channel}
    (pru : writer d = .pru) : FindsRoom m.channelSize d s.world.log := by
  induction reach with
  | refl => trivial
  | tail before step ih =>
    cases step with
    | enter i k idle ok => exact ih
    | leave i k r inside => exact ih
    | access i k p q a inside next =>
      have start : Holds (roomy (everyChannel writer reader) m.channelSize m.bufferStart) _ :=
        Orderly.counted left left.orderly Relation.ReflTransGen.refl
      have holds := AtomicProgram.reach_holds left.streams before start
      refine ⟨fun some => ?_, ih⟩
      obtain ⟨⟨x, v, access⟩, write, here⟩ := storedBy_write some
      have place := (holds_access holds inside next).2
      replace access : a = .store (.data x) v := access
      replace here : k.channel = d := here
      subst access
      subst here
      exact place write pru ih

end runs

/-- No write of the streaming loop meets its channel full, whatever calls of the ARM run into it
    and whatever updates of the counters get lost. While none gets lost, the channel is a queue:
    what the ARM takes is what the firmware stored, in order. -/
theorem stream_rounds_in_order (L : Layout) (m : Ram) (left : LeftByInit L m)
    (writer reader : Channel → Side) (s : State)
    (reach : Reach (streamParties ⟨fun _ => True, writer, reader⟩) (Conf.start m) s) (d : Channel)
    (pru : writer d = .pru) :
    FindsRoom m.channelSize d s.world.log ∧ (Undisturbed d s.world.log →
      takenList (reader d) d s.world.log <+: storedList .pru d s.world.log ∧
      (s.Quiet → takenList (reader d) d s.world.log ++ unread s.world.mem d =
        storedList .pru d s.world.log)) := by
  have room := left.finds_room reach pru
  refine ⟨room, fun undisturbed => ?_⟩
  have orderly : Orderly (everyChannel writer reader) m.channelSize m.bufferStart
      (streamParties (everyChannel writer reader)) :=
    ⟨left.streams.drop, streams_carry left.regions⟩
  have order := Orderly.in_order left orderly reach room undisturbed
  rwa [pru] at order

/-- The firmware streams on channel 0 and the ARM reads it: the read starts while the second
    byte is on its way, and the third round finds no place before the read ends. -/
def readWhileStreaming : List (Choice Side Op) :=
  let round := Op.firmwareWrite 0 (fun j => UInt8.ofNat (6 + j)) 1
  [.enter .pru round, .go .pru 13, .leave .pru, .enter .pru round, .go .pru 2,
    .enter .arm (.driverRead 0), .go .arm 1, .go .pru 11, .leave .pru,
    .enter .pru round, .go .pru 2, .go .arm 14, .leave .arm, .leave .pru]

theorem stream_rounds_in_order_read : ∃ s,
    Reach (streamParties ⟨fun _ => True, fun _ => .pru, fun _ => .arm⟩) (Conf.start pairsRam) s ∧
      takenList .arm 0 s.world.log ++ unread s.world.mem 0 = [7, 7] := by
  have allowed : ∀ p k, Choice.enter p k ∈ readWhileStreaming →
      Streams ⟨fun _ => True, fun _ => .pru, fun _ => .arm⟩ p k := by
    intro p k entered
    simp only [readWhileStreaming, List.mem_cons, List.not_mem_nil, Choice.enter.injEq, or_false,
      reduceCtorEq, false_or] at entered
    rcases entered with ⟨rfl, rfl⟩ | ⟨rfl, rfl⟩ | ⟨rfl, rfl⟩ | ⟨rfl, rfl⟩
    · exact ⟨⟨trivial, rfl, by decide, fun _ => rfl, fun no => absurd trivial no⟩, by simp⟩
    · exact ⟨⟨trivial, rfl, by decide, fun _ => rfl, fun no => absurd trivial no⟩, by simp⟩
    · exact ⟨⟨trivial, rfl, trivial, fun no => no.elim, fun _ => rfl⟩, nofun⟩
    · exact ⟨⟨trivial, rfl, by decide, fun _ => rfl, fun no => absurd trivial no⟩, by simp⟩
  obtain ⟨s, reach, undisturbed, quiet, stored⟩ := schedule_finds (s := Conf.start pairsRam)
    (streamParties ⟨fun _ => True, fun _ => .pru, fun _ => .arm⟩)
    (fun s : State => Undisturbed 0 s.world.log ∧ s.Quiet ∧ storedList .pru 0 s.world.log = [7, 7])
    allowed (by decide)
  refine ⟨s, reach, ?_⟩
  rw [← stored]
  exact ((stream_rounds_in_order pairs pairsRam pairsRam_left (fun _ => .pru) (fun _ => .arm) s
    reach 0 rfl).2 undisturbed).2 quiet

end PruBridge
