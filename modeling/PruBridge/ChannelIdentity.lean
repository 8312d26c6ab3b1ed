import PruBridge.Sysfs
import PruBridge.Tracking

/-!
Which channel a file of the driver stands for. Ten separate queues, one for each pair of
files `chN_write` and `chN_read`, against the handlers and their ring numbers.
-/
namespace PruBridge.Driver
open AtomicProgram CircularBuffer

abbrev Queues := Channel → List UInt8

/-- The files are ten separate queues throughout a run: the unread bytes of every channel
    are those of its queue, and a read of a non-empty channel gives its oldest byte. -/
def Identity : List ChannelCall → Ram → Queues → Prop
  | [], m, q => ∀ d, unread m d = q d
  | .write n buf :: rest, m, q => (∀ d, unread m d = q d) ∧
    ∃ reply m', (writeHandler n buf).run m = .ok (reply, m') ∧
      Identity rest m' (Function.update q n (q n ++ [buf.headD 0]))
  | .read n :: rest, m, q => (∀ d, unread m d = q d) ∧
    ∃ out m', (readHandler n).run m = .ok (out, m') ∧ (∀ b ∈ (q n).head?, out = [b, 10]) ∧
      Identity rest m' (Function.update q n (q n).tail)

/-- No write of the run meets a full channel. -/
def Roomy : List ChannelCall → Ram → Prop
  | [], _ => True
  | .write n buf :: rest, m => m.indexData n < m.channelSize n ∧
    ∀ reply m', (writeHandler n buf).run m = .ok (reply, m') → Roomy rest m'
  | .read n :: rest, m => ∀ out m', (readHandler n).run m = .ok (out, m') → Roomy rest m'

/-- A file that reads another channel's ring is only read while both channels are empty. -/
def StraysIdle : List ChannelCall → Queues → Prop
  | [], _ => True
  | .write n buf :: rest, q => StraysIdle rest (Function.update q n (q n ++ [buf.headD 0]))
  | .read n :: rest, q => (served n ≠ n → q n = [] ∧ q (served n) = []) ∧
    StraysIdle rest (Function.update q n (q n).tail)

theorem Identity.unread {calls : List ChannelCall} {m : Ram} {q : Queues}
    (law : Identity calls m q) (d : Channel) : unread m d = q d := by
  cases calls with
  | nil => exact law d
  | cons call rest =>
    cases call with
    | write n buf => exact law.1 d
    | read n => exact law.1 d

section steps
variable {L : Layout} {m : Ram} {q : Queues}

theorem size_ne_zero (tracks : Tracks L m q (fun _ => 0)) (c : Channel) : m.channelSize c ≠ 0 := by
  obtain ⟨r, encodes, -⟩ := tracks.ring c
  exact encodes.pos

theorem write_step (tracks : Tracks L m q (fun _ => 0)) {c : Channel} (b : UInt8)
    (room : m.indexData c < m.channelSize c) :
    Tracks L (written m c b) (Function.update q c (q c ++ [b])) (fun _ => 0) := by
  obtain ⟨r, m', follows, exec, -, next⟩ := tracks.exec (.driverWrite c b) trivial
  have run := exec_of_run (.driverWrite c b)
    (Prog.run_map_ok (writeBuffer_run m c b (size_ne_zero tracks c)))
  rw [run] at exec
  cases exec
  have less := UInt32.lt_iff_toNat_lt.mp room
  rw [tracks.index, tracks.laid.size] at less
  have fits : (q c).length + (Op.driverWrite c b).writes ≤ L.size c := less
  have none : 0 + ((q c).length + (Op.driverWrite c b).writes - L.size c) = 0 := by omega
  simp only [Op.channel] at next
  rw [offered_fits _ fits, none, Function.update_eq_self_iff.mpr rfl] at next
  exact next

theorem read_step (tracks : Tracks L m q (fun _ => 0)) {c : Channel} {b : UInt8}
    {others : List UInt8} (front : q c = b :: others) :
    (chRead c).run m = .ok ([b, 10], consumed m c) ∧
      Tracks L (consumed m c) (Function.update q c others) (fun _ => 0) := by
  have some : m.indexData c ≠ 0 := by
    intro zero
    have index := tracks.index c
    rw [zero, front] at index
    cases index
  have value : m.data (m.bufferStart c + m.head c) = b := by
    obtain ⟨r, encodes, follows⟩ := tracks.ring c
    rw [front] at follows
    have window := follows.window_take (k := 1) (Nat.dvd_zero _) (by simp)
    rw [window_cons] at window
    rw [encodes.head_cell, (List.cons.inj window).1]
  have pos := size_ne_zero tracks c
  obtain ⟨r, m', follows, exec, -, next⟩ := tracks.exec (.driverRead c) trivial
  have body := Prog.run_map_ok (f := Ret.byte) (readBuffer_run m c pos some)
  have run := exec_of_run (.driverRead c) body
  rw [run] at exec
  obtain ⟨-, rfl⟩ := Prod.mk.inj (Except.ok.inj exec)
  have le := follows.length_le
  have none : 0 + ((q c).length + (Op.driverRead c).writes - L.size c) = 0 := by
    simp only [Op.writes, Op.channel] at *
    omega
  simp only [Op.channel] at next
  rw [none, Op.offered, front, List.tail_cons, Function.update_eq_self_iff.mpr rfl] at next
  refine ⟨?_, next⟩
  rw [chRead_run m c pos some, value]

theorem read_step_empty (tracks : Tracks L m q (fun _ => 0)) {c : Channel} (empty : q c = []) :
    (chRead c).run m = .ok ([0, 10], m) := by
  apply chRead_run_empty
  rw [← UInt32.toNat_inj, tracks.index, empty]
  rfl

end steps

section law
variable {n : Channel} {rest : List ChannelCall} {m m' : Ram} {q : Queues}

theorem identity_write_iff {buf : Text} {reply : Nat} (here : ∀ d, unread m d = q d)
    (run : (writeHandler n buf).run m = .ok (reply, m')) :
    Identity (.write n buf :: rest) m q ↔
      Identity rest m' (Function.update q n (q n ++ [buf.headD 0])) := by
  constructor
  · rintro ⟨-, reply', m₁, again, law⟩
    rw [run] at again
    cases again
    exact law
  · exact fun law => ⟨here, reply, m', run, law⟩

theorem identity_read_iff {out : Text} (here : ∀ d, unread m d = q d)
    (run : (readHandler n).run m = .ok (out, m')) :
    Identity (.read n :: rest) m q ↔
      (∀ b ∈ (q n).head?, out = [b, 10]) ∧ Identity rest m' (Function.update q n (q n).tail) := by
  constructor
  · rintro ⟨-, out', m₁, again, law⟩
    rw [run] at again
    cases again
    exact law
  · exact fun law => ⟨here, out, m', run, law⟩

theorem tail_unchanged (empty : q n = []) : Function.update q n (q n).tail = q := by
  rw [empty, List.tail_nil, ← empty, Function.update_eq_self]

end law

section reads
variable {L : Layout} {n : Channel} {rest : List ChannelCall} {m : Ram} {q : Queues}

theorem identity_read_empty_iff (tracks : Tracks L m q (fun _ => 0)) (front : q (served n) = []) :
    Identity (.read n :: rest) m q ↔ q n = [] ∧ Identity rest m q := by
  have here : ∀ d, unread m d = q d := fun d => tracks.unread (Nat.dvd_zero _)
  have run := read_step_empty tracks front
  rw [← readHandler_eq] at run
  rw [identity_read_iff here run]
  constructor
  · rintro ⟨-, law⟩
    have shorter := law.unread n
    rw [here n, Function.update_self] at shorter
    have empty : q n = [] := by
      cases content : q n with
      | nil => rfl
      | cons b others =>
        rw [content] at shorter
        exact absurd shorter.symm List.ne_cons_self
    rw [tail_unchanged empty] at law
    exact ⟨empty, law⟩
  · rintro ⟨empty, later⟩
    rw [tail_unchanged empty]
    refine ⟨fun b mem => ?_, later⟩
    rw [empty] at mem
    cases mem

theorem identity_read_oldest_iff (tracks : Tracks L m q (fun _ => 0)) {b : UInt8}
    {others : List UInt8} (front : q (served n) = b :: others) :
    Identity (.read n :: rest) m q ↔ served n = n ∧
      Identity rest (consumed m (served n)) (Function.update q n (q n).tail) := by
  have here : ∀ d, unread m d = q d := fun d => tracks.unread (Nat.dvd_zero _)
  obtain ⟨run, tracks'⟩ := read_step tracks front
  rw [← readHandler_eq] at run
  rw [identity_read_iff here run]
  constructor
  · rintro ⟨-, law⟩
    refine ⟨?_, law⟩
    by_contra own
    -- another channel has lost a byte that it should still hold
    have stolen := law.unread (served n)
    rw [tracks'.unread (Nat.dvd_zero _), Function.update_self, Function.update_of_ne own,
      front] at stolen
    exact absurd stolen.symm (List.cons_ne_self _ _)
  · rintro ⟨own, later⟩
    refine ⟨fun d mem => ?_, later⟩
    rw [own] at front
    rw [front] at mem
    cases mem
    rfl

end reads

theorem identity_iff_of_tracks {L : Layout} {m : Ram} {q : Queues}
    (tracks : Tracks L m q (fun _ => 0)) {calls : List ChannelCall} (room : Roomy calls m) :
    Identity calls m q ↔ StraysIdle calls q := by
  induction calls generalizing m q with
  | nil => exact ⟨fun _ => trivial, fun _ d => tracks.unread (Nat.dvd_zero _)⟩
  | cons call rest ih =>
    have here : ∀ d, unread m d = q d := fun d => tracks.unread (Nat.dvd_zero _)
    cases call with
    | write n buf =>
      have run := chWrite_run m n buf (size_ne_zero tracks n)
      rw [← writeHandler_eq] at run
      rw [identity_write_iff here run]
      exact ih (write_step tracks (buf.headD 0) room.1) (room.2 _ _ run)
    | read n =>
      rw [StraysIdle]
      -- the ring that answers may be empty or not, and it may be another channel's
      cases front : q (served n) with
      | nil =>
        have run := read_step_empty tracks front
        rw [← readHandler_eq] at run
        rw [identity_read_empty_iff tracks front, ih tracks (room _ _ run)]
        constructor
        · rintro ⟨empty, later⟩
          rw [tail_unchanged empty]
          exact ⟨fun _ => ⟨empty, rfl⟩, later⟩
        · rintro ⟨idle, later⟩
          have empty : q n = [] := by
            by_cases own : served n = n
            · rwa [own] at front
            · exact (idle own).1
          rw [tail_unchanged empty] at later
          exact ⟨empty, later⟩
      | cons b others =>
        obtain ⟨run, tracks'⟩ := read_step tracks front
        rw [← readHandler_eq] at run
        have next := ih tracks' (room _ _ run)
        rw [identity_read_oldest_iff tracks front]
        constructor
        · rintro ⟨own, law⟩
          rw [own] at front next law
          rw [front] at law ⊢
          exact ⟨fun other => absurd own other, next.mp law⟩
        · rintro ⟨idle, later⟩
          by_cases own : served n = n
          · rw [own] at front next ⊢
            rw [front] at later ⊢
            exact ⟨rfl, next.mpr later⟩
          · cases (idle own).2

/-- After an init that fits, and while no write meets a full channel, the files are ten
    separate queues exactly as long as the two stray readers find nothing. -/
theorem channel_identity_iff (L : Layout) (m : Ram) (left : LeftByInit L m)
    (calls : List ChannelCall) (room : Roomy calls m) :
    Identity calls m (fun _ => []) ↔ StraysIdle calls (fun _ => []) :=
  identity_iff_of_tracks left.tracks room

theorem channel_identity_idle :
    Identity [.write 0 [65], .read 8, .read 0] pairsRam (fun _ => []) := by
  refine (channel_identity_iff pairs pairsRam pairsRam_left _ ?_).mpr ?_
  · refine ⟨by decide, fun reply m' run => ?_⟩
    exact fun _ _ _ _ _ _ => trivial
  · exact ⟨fun _ => ⟨rfl, rfl⟩, fun other => absurd rfl other, trivial⟩

theorem channel_nine_reads_eight : LeftByInit pairs pairsRam ∧
    Roomy [.write 8 [65], .read 8] pairsRam ∧
      ¬ Identity [.write 8 [65], .read 8] pairsRam (fun _ => []) := by
  refine ⟨pairsRam_left, ⟨by decide, fun _ _ _ _ _ _ => trivial⟩, ?_⟩
  rintro ⟨-, reply, m₁, write, -, out, m₂, read, oldest, -⟩
  rw [writeHandler_eq, chWrite_run _ _ _ (by decide)] at write
  cases write
  rw [readHandler_eq, chRead_run_empty _ _ (by decide)] at read
  cases read
  exact absurd (oldest 65 rfl) (by decide)

end PruBridge.Driver
