import PruBridge.RingRefinement

/-!
Whole operations: a call of one of the four ring functions, run to its end with nobody
in between, and what it does to the ring of its channel and to a FIFO queue.
-/
namespace PruBridge
open AtomicProgram CircularBuffer

inductive Side where
  | arm
  | pru
  deriving DecidableEq

instance : Fintype Side := ⟨{.arm, .pru}, fun p => by cases p <;> simp⟩

/-- A call. For a firmware write, `pruData` is the PRU memory from the caller's pointer on. -/
inductive Op where
  | driverWrite (c : Channel) (data : UInt8)
  | driverRead (c : Channel)
  | firmwareWrite (c : Channel) (pruData : Nat → UInt8) (length : Int32)
  | firmwareRead (c : Channel) (length : Int32)

inductive Ret where
  | void
  | byte (b : UInt8)
  | int (r : Int32)
  deriving DecidableEq

/-- What a caller has after a call: the return value, and the bytes a successful bulk read
    left in its array. -/
structure Outcome where
  ret : Ret
  bytes : List UInt8
  deriving DecidableEq

namespace Op

def side : Op → Side
  | .driverWrite .. => .arm
  | .driverRead .. => .arm
  | .firmwareWrite .. => .pru
  | .firmwareRead .. => .pru

def channel : Op → Channel
  | .driverWrite c _ => c
  | .driverRead c => c
  | .firmwareWrite c _ _ => c
  | .firmwareRead c _ => c

def writes : Op → Nat
  | .driverWrite .. => 1
  | .firmwareWrite _ _ length => length.toNatClampNeg
  | _ => 0

def reads : Op → Nat
  | .driverRead .. => 1
  | .firmwareRead _ length => length.toNatClampNeg
  | _ => 0

def IsWrite : Op → Prop
  | .driverWrite .. => True
  | .firmwareWrite .. => True
  | _ => False

instance (op : Op) : Decidable op.IsWrite := by
  cases op <;> simp only [IsWrite] <;> infer_instance

def Nonneg : Op → Prop
  | .firmwareWrite _ _ length => 0 ≤ length
  | .firmwareRead _ length => 0 ≤ length
  | _ => True

instance (op : Op) : Decidable op.Nonneg := by
  cases op <;> simp only [Nonneg] <;> infer_instance

def prepare : Op → Ram → Ram
  | .firmwareWrite _ pruData _, m => { m with pruData := pruData }
  | _, m => m

def body : Op → Code Ret
  | .driverWrite c data => (fun _ => .void) <$> Driver.writeBuffer c data
  | .driverRead c => .byte <$> Driver.readBuffer c
  | .firmwareWrite c _ length => .int <$> Firmware.writeBuffer c length
  | .firmwareRead c length => .int <$> Firmware.readBuffer c length

def received : Op → Ret → Ram → List UInt8
  | .firmwareRead _ length, ret, m =>
    if ret = .int 0 then (List.range length.toNatClampNeg).map m.pruData else []
  | _, _, _ => []

def exec (op : Op) (m : Ram) : Except Fault (Outcome × Ram) :=
  match op.body.run (op.prepare m) with
  | .ok (ret, m') => .ok (⟨ret, op.received ret m'⟩, m')
  | .error e => .error e

def onRing {n : Nat} : Op → Ring UInt8 n → Ring UInt8 n
  | .driverWrite _ b, r => r.put b
  | .driverRead _, r => r.release (min 1 r.count)
  | .firmwareWrite _ pruData length, r => r.putAll (storedBytes pruData length.toNatClampNeg)
  | .firmwareRead _ length, r =>
    if length.toNatClampNeg ≤ r.count then r.release length.toNatClampNeg else r

def ringOutcome {n : Nat} : Op → Ring UInt8 n → Outcome
  | .driverWrite .., _ => ⟨.void, []⟩
  | .driverRead _, r => ⟨.byte (if r.count = 0 then 0 else r.cells r.head), []⟩
  | .firmwareWrite .., _ => ⟨.int 0, []⟩
  | .firmwareRead _ length, r =>
    if length.toNatClampNeg ≤ r.count then
      ⟨.int 0, window r.cells r.head length.toNatClampNeg⟩
    else ⟨.int (-1), []⟩

def onQueue : Op → List UInt8 → Outcome × List UInt8
  | .driverWrite _ b, q => (⟨.void, []⟩, q ++ [b])
  | .driverRead _, q => (⟨.byte (q.headD 0), []⟩, q.tail)
  | .firmwareWrite _ pruData length, q =>
    (⟨.int 0, []⟩, q ++ storedBytes pruData length.toNatClampNeg)
  | .firmwareRead _ length, q =>
    if length.toNatClampNeg ≤ q.length then
      (⟨.int 0, q.take length.toNatClampNeg⟩, q.drop length.toNatClampNeg)
    else (⟨.int (-1), []⟩, q)

/-- The queue after the operation when the ring drops its oldest bytes for new ones. -/
def offered (n : Nat) : Op → List UInt8 → List UInt8
  | .driverWrite _ b, q => offer n q b
  | .driverRead _, q => q.tail
  | .firmwareWrite _ pruData length, q => offerAll n q (storedBytes pruData length.toNatClampNeg)
  | .firmwareRead _ length, q =>
    if length.toNatClampNeg ≤ q.length then q.drop length.toNatClampNeg else q

end Op

theorem exec_of_run (op : Op) {m m' : Ram} {ret : Ret}
    (run : op.body.run (op.prepare m) = .ok (ret, m')) :
    op.exec m = .ok (⟨ret, op.received ret m'⟩, m') := by
  rw [Op.exec, run]

theorem run_of_exec {op : Op} {m m' : Ram} {out : Outcome} (run : op.exec m = .ok (out, m')) :
    ∃ ret, op.body.run (op.prepare m) = .ok (ret, m') := by
  unfold Op.exec at run
  split at run
  · rename_i ret m₁ body
    cases run
    exact ⟨ret, body⟩
  · cases run

theorem Encodes.prepare {m : Ram} {c : Channel} {n : Nat} {r : Ring UInt8 n}
    (h : Encodes m c r) (op : Op) : Encodes (op.prepare m) c r := by
  cases op <;> exact ⟨h.size, h.head, h.tail, h.count, h.cells⟩

theorem prepare_frame (op : Op) (c : Channel) (m : Ram) : Frame c m (op.prepare m) := by
  cases op <;> exact ⟨rfl, rfl, rfl, fun _ _ => rfl, fun _ _ => rfl, fun _ _ => rfl, fun _ _ => rfl⟩

/-- Every operation of the code is the operation on the ring of its channel, and leaves
    the other channels alone. -/
theorem exec_ring (op : Op) {m : Ram} {n : Nat} {r : Ring UInt8 n}
    (small : op.side = .pru → n < 2 ^ 31) (nonneg : op.Nonneg) (h : Encodes m op.channel r) :
    ∃ m', op.exec m = .ok (op.ringOutcome r, m') ∧ Encodes m' op.channel (op.onRing r) ∧
      Frame op.channel m m' := by
  cases op with
  | driverWrite c b =>
    obtain ⟨encodes, frame⟩ := h.written b
    have run := Driver.writeBuffer_run m c b h.pos
    exact ⟨_, exec_of_run (.driverWrite c b) (Prog.run_map_ok run), encodes, frame⟩
  | driverRead c =>
    replace h : Encodes m c r := h
    have count := h.count
    by_cases none : m.indexData c = 0
    · have zero : r.count = 0 := by rw [← count]; exact congrArg UInt32.toNat none
      have same : r.release (min 1 r.count) = r := by
        refine Ring.ext_fields rfl ?_ rfl ?_ <;> simp [zero]
      refine ⟨m, ?_, ?_, Frame.refl c m⟩
      · rw [exec_of_run (.driverRead c) (Prog.run_map_ok (Driver.readBuffer_run_empty m c none))]
        simp [Op.ringOutcome, zero, Op.received]
      · simpa only [Op.onRing, Op.channel, same] using h
    · have pos := MachineWords.toNat_pos none
      have one : min 1 r.count = 1 := by omega
      have some : r.count ≠ 0 := by omega
      obtain ⟨encodes, frame⟩ := h.consumed none
      refine ⟨_, ?_, ?_, frame⟩
      · rw [exec_of_run (.driverRead c) (Prog.run_map_ok (Driver.readBuffer_run m c h.pos none))]
        simp only [Op.ringOutcome, some, ↓reduceIte, Op.received]
        rw [h.head_cell]
      · simpa only [Op.onRing, Op.channel, one] using encodes
  | firmwareWrite c pruData length =>
    obtain ⟨m', run, encodes, frame⟩ :=
      (h.prepare (.firmwareWrite c pruData length)).firmwareWrite (small rfl) nonneg
    exact ⟨m', exec_of_run (.firmwareWrite c pruData length) (Prog.run_map_ok run), encodes,
      (prepare_frame (.firmwareWrite c pruData length) c m).trans frame⟩
  | firmwareRead c length =>
    by_cases enough : length.toNatClampNeg ≤ r.count
    · obtain ⟨m', run, encodes, frame, bytes⟩ := h.firmwareRead (small rfl) nonneg enough
      refine ⟨m', ?_, ?_, frame⟩
      · rw [exec_of_run (.firmwareRead c length) (Prog.run_map_ok run)]
        simp only [Op.ringOutcome, enough, ↓reduceIte, Op.received, bytes]
      · simpa only [Op.onRing, enough, ↓reduceIte] using encodes
    · have run := h.firmwareRead_short (small rfl) nonneg (by omega)
      refine ⟨m, ?_, ?_, Frame.refl c m⟩
      · rw [exec_of_run (.firmwareRead c length) (Prog.run_map_ok run)]
        simp only [Op.ringOutcome, enough, ↓reduceIte, Op.received, Ret.int.injEq]
        rfl
      · simpa only [Op.onRing, enough, ↓reduceIte] using h

/-- Every operation keeps the ring on its queue. The lead grows by the bytes that found
    the ring full. -/
theorem onRing_follows (op : Op) {n : Nat} {r : Ring UInt8 n} {q : List UInt8} {lead : Nat}
    (h : r.Follows q lead) :
    (op.onRing r).Follows (op.offered n q) (lead + (q.length + op.writes - n)) := by
  have le := h.length_le
  have count := h.count
  have none : lead + (q.length + 0 - n) = lead := by omega
  cases op with
  | driverWrite c b => exact h.put b
  | driverRead c =>
    simp only [Op.writes, none, Op.onRing, Op.offered]
    cases q with
    | nil =>
      have zero : min 1 r.count = 0 := by rw [count]; rfl
      rw [zero]
      exact h.release (Nat.zero_le _)
    | cons b rest =>
      have one : min 1 r.count = 1 := by rw [count, List.length_cons]; omega
      rw [one]
      exact h.release (by simp)
  | firmwareWrite c pruData length =>
    have next := h.putAll (storedBytes pruData length.toNatClampNeg)
    rwa [storedBytes_length] at next
  | firmwareRead c length =>
    simp only [Op.writes, none, Op.onRing, Op.offered, count]
    split
    · rename_i enough
      exact h.release enough
    · exact h

theorem ringOutcome_eq (op : Op) {n : Nat} {r : Ring UInt8 n} {q : List UInt8} {lead : Nat}
    (h : r.Follows q lead) (turns : n ∣ lead) : op.ringOutcome r = (op.onQueue q).1 := by
  have count := h.count
  cases op with
  | driverWrite c b => rfl
  | driverRead c =>
    cases q with
    | nil => simp [Op.ringOutcome, Op.onQueue, count]
    | cons b rest =>
      have front : window r.cells r.head 1 = [b] := h.window_take turns (by simp)
      rw [window_cons] at front
      simp [Op.ringOutcome, Op.onQueue, count, (List.cons.inj front).1]
  | firmwareWrite c pruData length => rfl
  | firmwareRead c length =>
    simp only [Op.ringOutcome, Op.onQueue, count]
    split
    · rename_i enough
      rw [h.window_take turns enough]
    · rfl

theorem offered_fits (op : Op) {n : Nat} {q : List UInt8} (fits : q.length + op.writes ≤ n) :
    op.offered n q = (op.onQueue q).2 := by
  cases op with
  | driverWrite c b =>
    have room : q.length < n := fits
    simp only [Op.offered, Op.onQueue, offer, room, ↓reduceIte]
  | driverRead c => rfl
  | firmwareWrite c pruData length =>
    have none : q.length + length.toNatClampNeg - n = 0 := by
      simp only [Op.writes] at fits
      omega
    simp only [Op.offered, Op.onQueue, offerAll, storedBytes_length, none, List.drop_zero]
  | firmwareRead c length =>
    simp only [Op.offered, Op.onQueue]
    split <;> rfl

/-- `m` is what some write to the `init` file left, over any earlier contents. -/
def AfterInit (m : Ram) : Prop :=
  ∃ buf m₀ r, (Driver.numbers buf).length ≤ 10 ∧ (Driver.initChannels buf).run m₀ = .ok (r, m)

structure LeftByInit (L : Layout) (m : Ram) : Prop where
  init : AfterInit m
  size : ∀ c, (m.channelSize c).toNat = L.size c

theorem AfterInit.laidOut {m : Ram} (init : AfterInit m) :
    ∃ m₀, m = Driver.laidOut m₀ m.channelSize := by
  obtain ⟨buf, m₀, r, few, run⟩ := init
  rw [Driver.initChannels_run buf m₀ few] at run
  cases run
  exact ⟨m₀, rfl⟩

theorem AfterInit.empty {m : Ram} (init : AfterInit m) (c : Channel) :
    m.indexData c = 0 ∧ m.head c = 0 ∧ m.tail c = 0 := by
  obtain ⟨m₀, same⟩ := init.laidOut
  rw [same]
  exact ⟨rfl, rfl, rfl⟩

theorem AfterInit.ring {m : Ram} (init : AfterInit m) {c : Channel} {n : Nat}
    (size : (m.channelSize c).toNat = n) (pos : 0 < n) :
    ∃ r : Ring UInt8 n, Encodes m c r ∧ r.Follows [] 0 := by
  obtain ⟨index, head, tail⟩ := init.empty c
  let r : Ring UInt8 n :=
    ⟨fun i => m.data (m.bufferStart c + UInt32.ofNat i), ⟨0, pos⟩, ⟨0, pos⟩, 0, Nat.zero_le _⟩
  refine ⟨r, ⟨size, ?_, ?_, ?_, fun _ => rfl⟩, Ring.follows_empty r rfl rfl⟩
  · rw [head]; rfl
  · rw [tail]; rfl
  · rw [index]; rfl

theorem LeftByInit.laid {L : Layout} {m : Ram} (left : LeftByInit L m) : Laid L m := by
  refine ⟨left.size, fun c => ?_⟩
  obtain ⟨m₀, same⟩ := left.init.laidOut
  have sizes : (fun j => (m.channelSize j).toNat) = L.size := funext left.size
  have top := L.end_le c
  simp only [totalBufferSize] at top
  rw [same]
  simp only [Driver.laidOut, sizes]
  exact UInt32.toNat_ofNat_of_lt' (by change L.start c < 2 ^ 32; omega)

def pairs : Layout := ⟨fun _ => 2, by decide, by decide⟩

/-- `2 2 2 2 2 2 2 2 2 2 ` -/
def pairsText : Driver.Text := (List.replicate 10 [50, 32]).flatten

def zeroRam : Ram :=
  ⟨0, fun _ => 0, fun _ => 0, fun _ => 0, fun _ => 0, fun _ => 0, fun _ => 0, fun _ => 0⟩

def pairsRam : Ram := Driver.laidOut zeroRam fun _ => 2

theorem pairs_sizes : Driver.sizesAfter pairsText zeroRam.channelSize = fun _ => 2 := by
  funext c
  fin_cases c <;> decide

theorem pairsRam_left : LeftByInit pairs pairsRam := by
  refine ⟨⟨pairsText, zeroRam, Driver.strlen pairsText + 1, by decide, ?_⟩, fun _ => rfl⟩
  rw [Driver.initChannels_run _ _ (by decide), pairs_sizes]
  rfl

/-- A call stores to the counter, the head and the tail of its own channel, to ring bytes
    and to the caller's array. -/
def Op.MayTouch (c : Channel) : Access Cell Cell.Val → Prop
  | .load _ => True
  | .store (.indexData d) _ => d = c
  | .store (.head d) _ => d = c
  | .store (.tail d) _ => d = c
  | .store (.data _) _ => True
  | .store (.pruData _) _ => True
  | .store _ _ => False

theorem umod_only {may : Access Cell Cell.Val → Prop} (a n : UInt32) : (umod a n).Only may := by
  unfold umod
  split <;> trivial

theorem advanceHead_touches (c : Channel) : (advanceHead c).Only (Op.MayTouch c) := by
  refine ⟨trivial, fun head => ⟨trivial, fun size => ?_⟩⟩
  exact (umod_only _ size).bind fun _ => ⟨rfl, trivial⟩

theorem advanceTail_touches (c : Channel) : (advanceTail c).Only (Op.MayTouch c) := by
  refine ⟨trivial, fun tail => ⟨trivial, fun size => ?_⟩⟩
  exact (umod_only _ size).bind fun _ => ⟨rfl, trivial⟩

theorem readLoop_touches (c : Channel) (left i : Nat) :
    (Firmware.readLoop c left i).Only (Op.MayTouch c) := by
  induction left generalizing i with
  | zero => trivial
  | succ left ih =>
    unfold Firmware.readLoop
    refine ⟨trivial, fun start => ⟨trivial, fun head => ⟨trivial, fun value => ⟨trivial, ?_⟩⟩⟩⟩
    exact (advanceHead_touches c).bind fun _ => ih (i + 1)

theorem writeLoop_touches (c : Channel) (i : Nat) :
    (Firmware.writeLoop c i).Only (Op.MayTouch c) := by
  induction i with
  | zero => trivial
  | succ i ih =>
    unfold Firmware.writeLoop
    refine ⟨trivial, fun start => ⟨trivial, fun tail => ⟨trivial, fun value => ⟨trivial, ?_⟩⟩⟩⟩
    exact (advanceTail_touches c).bind fun _ => ih

theorem printkRing_touches {c d : Channel} {cell : Code UInt32} (only : cell.Only (Op.MayTouch c)) :
    (Driver.printkRing d cell).Only (Op.MayTouch c) := by
  refine only.bind fun k => ⟨trivial, fun _ => ?_⟩
  exact only.bind fun _ => ⟨trivial, fun _ => trivial⟩

theorem driverWrite_touches (c : Channel) (b : UInt8) :
    (Driver.writeBuffer c b).Only (Op.MayTouch c) := by
  have count : (Driver.countUp c).Only (Op.MayTouch c) := by
    refine ⟨trivial, fun index => ⟨trivial, fun size => ?_⟩⟩
    change (ite _ _ _ : Code Unit).Only _
    split
    · exact ⟨trivial, fun _ => ⟨rfl, trivial⟩⟩
    · trivial
  have cell : (tailCell c).Only (Op.MayTouch c) := ⟨trivial, fun _ => ⟨trivial, fun _ => trivial⟩⟩
  refine cell.bind fun k => ⟨trivial, ?_⟩
  refine count.bind fun _ => (printkRing_touches cell).bind fun _ => advanceTail_touches c

theorem driverRead_touches (c : Channel) : (Driver.readBuffer c).Only (Op.MayTouch c) := by
  have cell : (headCell c).Only (Op.MayTouch c) := ⟨trivial, fun _ => ⟨trivial, fun _ => trivial⟩⟩
  refine ⟨trivial, fun index => ?_⟩
  change (ite _ _ _ : Code UInt8).Only _
  split
  · refine cell.bind fun k => ⟨trivial, fun _ => ⟨trivial, fun _ => ⟨rfl, ?_⟩⟩⟩
    exact (printkRing_touches cell).bind fun _ => (advanceHead_touches c).bind fun _ => trivial
  · trivial

theorem firmwareWrite_touches (c : Channel) (length : Int32) :
    (Firmware.writeBuffer c length).Only (Op.MayTouch c) := by
  refine (writeLoop_touches c _).bind fun _ => ⟨trivial, fun index => ⟨trivial, fun size => ?_⟩⟩
  change ((ite _ _ _ : Code Unit) >>= _).Only _
  split
  · exact ⟨trivial, fun _ => ⟨rfl, trivial⟩⟩
  · exact ⟨trivial, fun _ => ⟨rfl, trivial⟩⟩

theorem firmwareRead_touches (c : Channel) (length : Int32) :
    (Firmware.readBuffer c length).Only (Op.MayTouch c) := by
  refine ⟨trivial, fun index => ?_⟩
  change (ite _ _ _ : Code Int32).Only _
  split
  · exact (readLoop_touches c _ 0).bind fun _ => ⟨trivial, fun _ => ⟨rfl, trivial⟩⟩
  · trivial

theorem body_touches (op : Op) : op.body.Only (Op.MayTouch op.channel) := by
  cases op with
  | driverWrite c b => exact (driverWrite_touches c b).map _
  | driverRead c => exact (driverRead_touches c).map _
  | firmwareWrite c pruData length => exact (firmwareWrite_touches c length).map _
  | firmwareRead c length => exact (firmwareRead_touches c length).map _

/-- Whatever the sizes are, an operation leaves the layout and the other channels' words. -/
structure Untouched (c : Channel) (m m' : Ram) : Prop where
  initCheck : m'.initCheck = m.initCheck
  channelSize : m'.channelSize = m.channelSize
  bufferStart : m'.bufferStart = m.bufferStart
  indexData : ∀ d, d ≠ c → m'.indexData d = m.indexData d
  head : ∀ d, d ≠ c → m'.head d = m.head d
  tail : ∀ d, d ≠ c → m'.tail d = m.tail d

theorem exec_untouched {op : Op} {m m' : Ram} {out : Outcome} (run : op.exec m = .ok (out, m')) :
    Untouched op.channel m m' := by
  obtain ⟨ret, body⟩ := run_of_exec run
  have same := prepare_frame op op.channel m
  have kept := fun d apart => (body_touches op).run_get (d := d) apart body
  constructor
  · exact (kept .initCheck (fun _ h => h)).trans same.initCheck
  · funext d
    exact (kept (.channelSize d) (fun _ h => h)).trans (congrFun same.channelSize d)
  · funext d
    exact (kept (.bufferStart d) (fun _ h => h)).trans (congrFun same.bufferStart d)
  · exact fun d other => (kept (.indexData d) (fun _ h => other h)).trans (same.indexData d other)
  · exact fun d other => (kept (.head d) (fun _ h => other h)).trans (same.head d other)
  · exact fun d other => (kept (.tail d) (fun _ h => other h)).trans (same.tail d other)

end PruBridge
