import PruBridge.Projection
import PruBridge.RaceSafety

/-!
The channels do not disturb each other: what happens on one channel in an interleaving of
calls on all ten happens in an interleaving of the calls on that channel alone.
-/
namespace PruBridge
open AtomicProgram

def OnChannel (c : Channel) : Access Cell Cell.Val → Prop
  | .load (.channelSize d) => d = c
  | .load (.bufferStart d) => d = c
  | .load (.indexData d) => d = c
  | .load (.head d) => d = c
  | .load (.tail d) => d = c
  | .load (.data _) => True
  | .store (.indexData d) _ => d = c
  | .store (.head d) _ => d = c
  | .store (.tail d) _ => d = c
  | .store (.data _) _ => True
  | _ => False

/-- The accesses of a call: a firmware write loads the array of its caller, a firmware read
    stores to it. -/
def Op.Keeps (k : Op) : Access Cell Cell.Val → Prop
  | .load (.pruData _) => k.side = .pru ∧ k.IsWrite
  | .store (.pruData _) _ => k.side = .pru
  | a => OnChannel k.channel a

section keeps
variable {c : Channel} {may : Access Cell Cell.Val → Prop} (own : ∀ a, OnChannel c a → may a)
include own

theorem tailCell_keeps : (tailCell c).Only may :=
  ⟨own (.load (.bufferStart c)) rfl, fun _ => ⟨own (.load (.tail c)) rfl, fun _ => trivial⟩⟩

theorem headCell_keeps : (headCell c).Only may :=
  ⟨own (.load (.bufferStart c)) rfl, fun _ => ⟨own (.load (.head c)) rfl, fun _ => trivial⟩⟩

theorem advanceTail_keeps : (advanceTail c).Only may := by
  refine ⟨own (.load (.tail c)) rfl, fun _ => ⟨own (.load (.channelSize c)) rfl, fun size => ?_⟩⟩
  exact (umod_only _ size).bind fun v => ⟨own (.store (.tail c) v) rfl, trivial⟩

theorem advanceHead_keeps : (advanceHead c).Only may := by
  refine ⟨own (.load (.head c)) rfl, fun _ => ⟨own (.load (.channelSize c)) rfl, fun size => ?_⟩⟩
  exact (umod_only _ size).bind fun v => ⟨own (.store (.head c) v) rfl, trivial⟩

theorem printkRing_keeps {cell : Code UInt32} (only : cell.Only may) :
    (Driver.printkRing c cell).Only may := by
  refine only.bind fun k => ⟨own (.load (.data k)) trivial, fun _ => ?_⟩
  exact only.bind fun _ => ⟨own (.load (.indexData c)) rfl, fun _ => trivial⟩

theorem driverWrite_keeps (b : UInt8) : (Driver.writeBuffer c b).Only may := by
  have index := own (.load (.indexData c)) rfl
  have count : (Driver.countUp c).Only may := by
    refine ⟨index, fun _ => ⟨own (.load (.channelSize c)) rfl, fun size => ?_⟩⟩
    change (ite _ _ _ : Code Unit).Only _
    split
    · exact ⟨index, fun v => ⟨own (.store (.indexData c) (v + 1)) rfl, trivial⟩⟩
    · trivial
  refine (tailCell_keeps own).bind fun k => ⟨own (.store (.data k) b) trivial, ?_⟩
  refine count.bind fun _ => (printkRing_keeps own (tailCell_keeps own)).bind fun _ => ?_
  exact advanceTail_keeps own

theorem driverRead_keeps : (Driver.readBuffer c).Only may := by
  have index := own (.load (.indexData c)) rfl
  refine ⟨index, fun _ => ?_⟩
  change (ite _ _ _ : Code UInt8).Only _
  split
  · refine (headCell_keeps own).bind fun k => ⟨own (.load (.data k)) trivial, fun _ => ?_⟩
    refine ⟨index, fun v => ⟨own (.store (.indexData c) (v - 1)) rfl, ?_⟩⟩
    refine (printkRing_keeps own (headCell_keeps own)).bind fun _ => ?_
    exact (advanceHead_keeps own).bind fun _ => trivial
  · trivial

theorem firmwareWrite_keeps (array : ∀ i, may (.load (.pruData i))) (length : Int32) :
    (Firmware.writeBuffer c length).Only may := by
  have index := own (.load (.indexData c)) rfl
  have size := own (.load (.channelSize c)) rfl
  have loop : ∀ i, (Firmware.writeLoop c i).Only may := by
    intro i
    induction i with
    | zero => trivial
    | succ i ih =>
      unfold Firmware.writeLoop
      refine (tailCell_keeps own).bind fun k => ⟨array (i + 1), fun b => ?_⟩
      exact ⟨own (.store (.data k) b) trivial, (advanceTail_keeps own).bind fun _ => ih⟩
  refine (loop _).bind fun _ => ⟨index, fun _ => ⟨size, fun _ => ?_⟩⟩
  change ((ite _ _ _ : Code Unit) >>= _).Only _
  split
  · exact ⟨index, fun v => ⟨own (.store (.indexData c) (v + length.toUInt32)) rfl, trivial⟩⟩
  · exact ⟨size, fun v => ⟨own (.store (.indexData c) v) rfl, trivial⟩⟩

theorem firmwareRead_keeps (array : ∀ i v, may (.store (.pruData i) v)) (length : Int32) :
    (Firmware.readBuffer c length).Only may := by
  have index := own (.load (.indexData c)) rfl
  have loop : ∀ left i, (Firmware.readLoop c left i).Only may := by
    intro left
    induction left with
    | zero => exact fun _ => trivial
    | succ left ih =>
      intro i
      unfold Firmware.readLoop
      refine (headCell_keeps own).bind fun k => ⟨own (.load (.data k)) trivial, fun b => ?_⟩
      exact ⟨array i b, (advanceHead_keeps own).bind fun _ => ih (i + 1)⟩
  refine ⟨index, fun _ => ?_⟩
  change (ite _ _ _ : Code Int32).Only _
  split
  · refine (loop _ 0).bind fun _ => ⟨index, fun v => ?_⟩
    exact ⟨own (.store (.indexData c) (v - length.toUInt32)) rfl, trivial⟩
  · trivial

end keeps

theorem body_keeps (k : Op) : k.body.Only k.Keeps := by
  have own : ∀ a, OnChannel k.channel a → k.Keeps a := by
    intro a on
    unfold Op.Keeps
    split
    · exact on.elim
    · exact on.elim
    · exact on
  cases k with
  | driverWrite c b => exact (driverWrite_keeps own b).map _
  | driverRead c => exact (driverRead_keeps own).map _
  | firmwareWrite c pruData length =>
    exact (firmwareWrite_keeps own (fun _ => ⟨rfl, trivial⟩) length).map _
  | firmwareRead c length => exact (firmwareRead_keeps own (fun _ _ => rfl) length).map _

def Moves (size start : Channel → UInt32) (c : Channel) : Cell → Prop
  | .indexData d => d = c
  | .head d => d = c
  | .tail d => d = c
  | .data k => InRing size start c k
  | _ => False

def Sees (size start : Channel → UInt32) (c : Channel) : Cell → Prop
  | .channelSize d => d = c
  | .bufferStart d => d = c
  | cell => Moves size start c cell

def OwnArray : Side → Cell → Prop
  | .pru, .pruData _ => True
  | _, _ => False

def channels (size start : Channel → UInt32)
    (apart : ∀ c d k, c ≠ d → InRing size start c k → ¬ InRing size start d k) :
    Topics Side Op Cell Channel where
  topic := Op.channel
  fresh := Op.IsWrite
  sees := Sees size start
  changes := Moves size start
  mine := OwnArray
  changes_apart c d cell other moves sees := by
    cases cell with
    | indexData e => exact other (moves.symm.trans sees)
    | head e => exact other (moves.symm.trans sees)
    | tail e => exact other (moves.symm.trans sees)
    | data k => exact apart c d k other moves sees
    | _ => exact moves
  changes_common p c cell moves mine := by
    cases p <;> cases cell <;> first | exact moves | exact mine
  sees_common p c cell sees mine := by
    cases p <;> cases cell <;> first | exact sees | exact mine
  mine_apart p q cell other here there := by
    cases p with
    | arm => exact here
    | pru => cases q with
      | arm => exact there
      | pru => exact other rfl

theorem channels_entered {size start : Channel → UInt32}
    {apart : ∀ c d k, c ≠ d → InRing size start c k → ¬ InRing size start d k} (ρ : Roles) :
    (channels size start apart).Enters (parties ρ) := by
  constructor
  · intro p k m cell ok other
    cases k with
    | firmwareWrite c pruData length =>
      have side : Side.pru = p := ok.side
      subst side
      cases cell <;> first | rfl | exact absurd trivial other
    | _ => rfl
  · intro p k m m' cell ok fresh mine
    cases k with
    | firmwareWrite c pruData length =>
      cases p <;> cases cell <;> first | rfl | exact mine.elim
    | driverWrite c b =>
      have side : Side.arm = p := ok.side
      subst side
      exact mine.elim
    | driverRead c => exact fresh.elim
    | firmwareRead c length => exact fresh.elim

theorem parties_on {size start : Channel → UInt32}
    {apart : ∀ c d k, c ≠ d → InRing size start c k → ¬ InRing size start d k}
    (writer reader : Channel → Side) (c : Channel) :
    (parties ⟨fun _ => True, writer, reader⟩).on (channels size start apart) c =
      parties ⟨(· = c), writer, reader⟩ := by
  have allowed : ∀ p k, (Roles.Allowed ⟨fun _ => True, writer, reader⟩ p k ∧ k.channel = c) =
      Roles.Allowed ⟨(· = c), writer, reader⟩ p k := by
    intro p k
    apply propext
    constructor
    · rintro ⟨ok, here⟩
      exact ⟨here, ok.side, ok.nonneg, ok.writer, ok.reader⟩
    · intro ok
      exact ⟨⟨trivial, ok.side, ok.nonneg, ok.writer, ok.reader⟩, ok.uses⟩
  simp only [Clients.on, parties]
  congr 1
  funext p k
  exact allowed p k

theorem within_of_keeps {size start : Channel → UInt32}
    {apart : ∀ c d k, c ≠ d → InRing size start c k → ¬ InRing size start d k} {p : Side} {k : Op}
    {a : Access Cell Cell.Val} (side : k.side = p) (keeps : k.Keeps a)
    (ring : ∀ x ∈ dataCell a, InRing size start k.channel x) :
    (channels size start apart).Within p k a := by
  cases a with
  | load cell =>
    cases cell with
    | data x => exact Or.inl (ring x rfl)
    | pruData i =>
      obtain ⟨pru, write⟩ := keeps
      rw [pru] at side
      subst side
      exact Or.inr ⟨trivial, write⟩
    | _ => exact Or.inl keeps
  | store cell v =>
    cases cell with
    | data x => exact Or.inl (ring x rfl)
    | pruData i =>
      have pru : k.side = .pru := keeps
      rw [pru] at side
      subst side
      exact Or.inr trivial
    | _ => exact Or.inl keeps

/-- `t` shows of channel `c` what `s` shows, with the calls on the other channels taken out. -/
structure ShowsChannel (c : Channel) (s t : State) : Prop where
  busy : ∀ p, t.busy p = (s.busy p).filter fun here => here.1.channel = c
  channelSize : t.world.mem.channelSize c = s.world.mem.channelSize c
  bufferStart : t.world.mem.bufferStart c = s.world.mem.bufferStart c
  indexData : t.world.mem.indexData c = s.world.mem.indexData c
  head : t.world.mem.head c = s.world.mem.head c
  tail : t.world.mem.tail c = s.world.mem.tail c
  data : ∀ k, InRegion s.world.mem c k → t.world.mem.data k = s.world.mem.data k
  log : t.world.log.map Event.act =
    (s.world.log.filter fun e => e.call.channel = c).map Event.act

/-- Every interleaving of calls on all channels shows of each channel what an interleaving of
    the calls on that channel alone shows: the same accesses with the same values in the same
    order, and the same ring. -/
theorem channel_alone (L : Layout) (m : Ram) (left : LeftByInit L m)
    (writer reader : Channel → Side) (c : Channel) (s : State)
    (reach : Reach (parties ⟨fun _ => True, writer, reader⟩) (Conf.start m) s) :
    ∃ t, Reach (parties ⟨(· = c), writer, reader⟩) (Conf.start m) t ∧ ShowsChannel c s t := by
  have laid := left.laid
  have apart : ∀ d e k, d ≠ e → InRing m.channelSize m.bufferStart d k →
      ¬ InRing m.channelSize m.bufferStart e k := by
    intro d e k other here
    exact laid.regions_disjoint other here
  have within : ∀ u, Reach (parties ⟨fun _ => True, writer, reader⟩) (Conf.start m) u →
      ∀ p k body a rest, u.busy p = some (k, body) → body.next u.world.mem = some (a, rest) →
        (channels m.channelSize m.bufferStart apart).Within p k a := by
    intro u reach' p k body a rest inside next
    obtain ⟨ok, kept⟩ := reach_inside reach' inside
    have keeps := ((kept _ (body_keeps k)).next next).1
    exact within_of_keeps ok.side keeps (holds_access (left.reach_holds reach') inside next)
  have entered : (channels m.channelSize m.bufferStart apart).Enters
      (parties ⟨fun _ => True, writer, reader⟩) := channels_entered _
  obtain ⟨t, reached, projects⟩ := projected entered c within reach
  have inv : Inv _ m.channelSize m.bufferStart s.world := (left.reach_holds reach).1
  rw [parties_on] at reached
  refine ⟨t, reached, projects.busy, ?_, ?_, ?_, ?_, ?_, ?_, projects.log⟩
  · exact projects.common (.channelSize c) rfl
  · exact projects.common (.bufferStart c) rfl
  · exact projects.common (.indexData c) rfl
  · exact projects.common (.head c) rfl
  · exact projects.common (.tail c) rfl
  · intro k inside
    rw [InRegion, inv.sizes, inv.starts] at inside
    exact projects.common (.data k) inside

/-- The PRU counts a byte of channel 1 in while the ARM is inside of a write to channel 0. -/
def writeBeside : List (Choice Side Op) :=
  [.enter .arm (.driverWrite 0 5), .go .arm 5,
    .enter .pru (.firmwareWrite 1 (fun _ => 9) 1), .go .pru 11, .leave .pru]

def pruOnOne : Channel → Side := fun c => if c = 1 then .pru else .arm

theorem writeBeside_allowed (p : Side) (k : Op) (entered : Choice.enter p k ∈ writeBeside) :
    (parties ⟨fun _ => True, pruOnOne, fun _ => .arm⟩).allowed p k := by
  simp only [writeBeside, List.mem_cons, List.not_mem_nil, Choice.enter.injEq, or_false,
    reduceCtorEq, false_or] at entered
  rcases entered with ⟨rfl, rfl⟩ | ⟨rfl, rfl⟩
  · exact ⟨trivial, rfl, trivial, fun _ => rfl, fun no => absurd trivial no⟩
  · exact ⟨trivial, rfl, by decide, fun _ => rfl, fun no => absurd trivial no⟩

theorem channel_alone_beside :
    ∃ t, Reach (parties ⟨(· = 1), pruOnOne, fun _ => .arm⟩) (Conf.start pairsRam) t ∧
      t.world.mem.indexData 1 = 1 ∧ t.busy .arm = none := by
  obtain ⟨s, reach, inside, index⟩ := schedule_finds (s := Conf.start pairsRam) _
    (fun s : State => (s.busy .arm).map (fun here => here.1.channel) = some 0 ∧
      s.world.mem.indexData 1 = 1) writeBeside_allowed (by decide)
  obtain ⟨t, reached, shows⟩ := channel_alone pairs pairsRam pairsRam_left _ _ 1 s reach
  refine ⟨t, reached, shows.indexData.trans index, ?_⟩
  rw [shows.busy]
  cases here : s.busy .arm with
  | none => rfl
  | some call =>
    rw [here] at inside
    have other : call.1.channel = 0 := Option.some.inj inside
    simp [other]

end PruBridge
