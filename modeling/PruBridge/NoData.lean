import PruBridge.Overflow
import PruBridge.RingBounds
import PruBridge.Stdio

/-!
What the reader of a channel can tell from the results of `read_buffer` alone. An empty
channel gives 0, and so does a channel whose oldest byte is 0. `pru_read` of the C library
leaves the results in the array of its caller as they are.
-/
namespace PruBridge.NoData
open AtomicProgram CircularBuffer MachineWords Overflow
open Library.Stdio (Outcomes bytesRead bytesRead_eq)

/-- A run of driver calls on one channel that stays in `ring->data`: what the reads return, and the
    bytes they take out. -/
inductive Run (c : Channel) : List ByteOp → Ram → List UInt8 → List UInt8 → Ram → Prop where
  | nil (m : Ram) : Run c [] m [] [] m
  | write {b rest m m₁ m' results removed} (inside : Driver.InBounds (Driver.writeBuffer c b) m)
      (call : (Driver.writeBuffer c b).run m = .ok ((), m₁))
      (later : Run c rest m₁ results removed m') : Run c (.write b :: rest) m results removed m'
  | read {v rest m m₁ m' results removed} (inside : Driver.InBounds (Driver.readBuffer c) m)
      (call : (Driver.readBuffer c).run m = .ok (v, m₁))
      (later : Run c rest m₁ results removed m') :
      Run c (.read :: rest) m (v :: results) ((unread m c).take 1 ++ removed) m'

def bytesWritten (ops : List ByteOp) : List UInt8 :=
  ops.flatMap fun
    | .write b => [b]
    | .read => []

/-- No write meets a channel of size `n` full, from `len` unread bytes on. -/
def StaysWithin (n : Nat) : List ByteOp → (len : Nat) → Prop
  | [], _ => True
  | .write _ :: rest, len => len < n ∧ StaysWithin n rest (len + 1)
  | .read :: rest, len => StaysWithin n rest (len - 1)

/-- Runs that write only bytes of `B` and look the same to the reader took the same bytes. -/
def ToldApart (B : UInt8 → Prop) : Prop :=
  ∀ c c' m₀ m₀', AfterInit m₀ → 0 < (m₀.channelSize c).toNat →
    AfterInit m₀' → 0 < (m₀'.channelSize c').toNat →
    ∀ ops ops', (∀ b ∈ bytesWritten ops, B b) → (∀ b ∈ bytesWritten ops', B b) →
    ∀ results removed removed' m m', Run c ops m₀ results removed m →
      Run c' ops' m₀' results removed' m' → removed = removed'

/-- The cells from the head to the tail, `ahead` of them, hold bytes of `P`. After writes that
    met the channel full they are more than the counter says. -/
structure Fed (P : UInt8 → Prop) (m : Ram) (c : Channel) (ahead : Nat) : Prop where
  head : m.head c < m.channelSize c
  index : m.indexData c ≤ m.channelSize c
  count : (m.indexData c).toNat ≤ ahead
  tail : (m.tail c).toNat = ((m.head c).toNat + ahead) % (m.channelSize c).toNat
  bytes : ∀ j < ahead, P (ringByte m c j)

section fed
variable {P : UInt8 → Prop} {m : Ram} {c : Channel} {ahead : Nat}

theorem Fed.nonzero (fed : Fed P m c ahead) : m.channelSize c ≠ 0 := ne_zero_of_lt fed.head

theorem Fed.tail_lt (fed : Fed P m c ahead) : m.tail c < m.channelSize c := by
  rw [UInt32.lt_iff_toNat_lt, fed.tail]
  exact Nat.mod_lt _ (toNat_pos_of_lt fed.head)

theorem Fed.write (fed : Fed P m c ahead) {b : UInt8} (good : P b) :
    Fed P (Driver.written m c b) c (ahead + 1) := by
  have inside := fed.tail_lt
  have below := written_index_le fed.index b
  rw [written_eq fed.index] at below ⊢
  constructor
  · exact fed.head
  · exact below
  · have count := fed.count
    rw [recounted_indexData, toNat_saturated]
    omega
  · have moved : (recounted (pushed m c b) c (saturated m c 1)).tail c =
        (m.tail c + 1) % m.channelSize c := pushed_tail b
    rw [moved, toNat_next inside, fed.tail, Nat.mod_add_mod, Nat.add_assoc]
    rfl
  · intro j less
    have byte : ringByte (recounted (pushed m c b) c (saturated m c 1)) c j =
        if m.bufferStart c + UInt32.ofNat (((m.head c).toNat + j) % (m.channelSize c).toNat) =
          m.bufferStart c + m.tail c then b else ringByte m c j := Function.update_apply _ _ _ _
    rw [byte]
    split
    · exact good
    · rename_i other
      have before : j ≠ ahead := by
        intro last
        rw [last, ← fed.tail, UInt32.ofNat_toNat] at other
        exact other rfl
      exact fed.bytes j (by omega)

theorem Fed.read (fed : Fed P m c ahead) (some : m.indexData c ≠ 0) :
    Fed P (Driver.consumed m c) c (ahead - 1) := by
  have pos := toNat_pos_of_lt fed.head
  have positive := toNat_pos some
  have less := toNat_sub_one some
  have count := fed.count
  have moved : ((Driver.consumed m c).head c).toNat =
      ((m.head c).toNat + 1) % (m.channelSize c).toNat := by
    rw [Driver.consumed_head, toNat_next fed.head]
  constructor
  · rw [Driver.consumed_head]
    exact next_lt fed.head
  · exact consumed_index_le fed.index some
  · rw [Driver.consumed_indexData, less]
    omega
  · have steps : 1 + (ahead - 1) = ahead := by omega
    rw [moved]
    change (m.tail c).toNat = (_ + _) % (m.channelSize c).toNat
    rw [Nat.mod_add_mod, Nat.add_assoc, steps, fed.tail]
  · intro j inside
    have next := ringByte_soughtBy pos 1 j
    have byte : ringByte (Driver.consumed m c) c j = ringByte m c (1 + j) := by
      rw [consumed_eq fed.head, ← next]
      rfl
    rw [byte]
    exact fed.bytes (1 + j) (by omega)

end fed

theorem AfterInit.fed {m : Ram} (init : AfterInit m) {c : Channel}
    (pos : 0 < (m.channelSize c).toNat) (P : UInt8 → Prop) : Fed P m c 0 := by
  obtain ⟨index, head, tail⟩ := init.empty c
  constructor
  · rw [head, UInt32.lt_iff_toNat_lt]
    exact pos
  · rw [index, UInt32.le_iff_toNat_le]
    exact Nat.zero_le _
  · rw [index]
    exact Nat.le_refl 0
  · rw [head, tail]
    exact (Nat.zero_mod _).symm
  · intro j less
    exact absurd less (Nat.not_lt_zero j)

theorem front_empty {m : Ram} {c : Channel} (none : m.indexData c = 0) :
    (unread m c).take 1 = [] := by
  unfold unread unreadCells
  rw [none]
  rfl

theorem front_some {m : Ram} {c : Channel} (some : m.indexData c ≠ 0) :
    (unread m c).take 1 = [ringByte m c 0] := by
  obtain ⟨k, count⟩ := Nat.exists_eq_succ_of_ne_zero (Nat.ne_of_gt (toNat_pos some))
  unfold unread unreadCells
  rw [count, List.map_map, List.range_succ_eq_map]
  rfl

theorem run_exists {m : Ram} {c : Channel} {ahead : Nat} (fed : Fed (fun _ => True) m c ahead)
    (ring : (m.bufferStart c).toNat + (m.channelSize c).toNat ≤ totalBufferSize)
    (ops : List ByteOp) : ∃ results removed m', Run c ops m results removed m' := by
  induction ops generalizing m ahead with
  | nil => exact ⟨[], [], m, .nil m⟩
  | cons op rest ih =>
    have fits := cellsFit_of_ring (toNat_pos_of_lt fed.head) ring
    cases op with
    | write b =>
      have inside := (driverWrite_inBounds_iff fed.tail_lt b).mpr (fits _ _)
      obtain ⟨results, removed, m', later⟩ := ih (fed.write (b := b) trivial) ring
      exact ⟨results, removed, m', .write inside (Driver.writeBuffer_run m c b fed.nonzero) later⟩
    | read =>
      have inside := (driverRead_inBounds_iff fed.head).mpr fun _ => fits _ _
      by_cases none : m.indexData c = 0
      · obtain ⟨results, removed, m', later⟩ := ih fed ring
        exact ⟨_, _, m', .read inside (Driver.readBuffer_run_empty m c none) later⟩
      · obtain ⟨results, removed, m', later⟩ := ih (fed.read none) ring
        exact ⟨_, _, m', .read inside (Driver.readBuffer_run m c fed.nonzero none) later⟩

section runs
variable {c : Channel} {ops : List ByteOp} {m m' : Ram} {results removed : List UInt8}

/-- Where only nonzero bytes are written, the nonzero results are the bytes taken out. -/
theorem Run.removed_eq {ahead : Nat} (run : Run c ops m results removed m')
    (fed : Fed (· ≠ 0) m c ahead) (nonzero : ∀ b ∈ bytesWritten ops, b ≠ 0) :
    results.filter (· ≠ 0) = removed := by
  induction run generalizing ahead with
  | nil m => rfl
  | @write b rest m m₁ m' results removed inside call later ih =>
    rw [Driver.writeBuffer_run m c b fed.nonzero] at call
    cases call
    exact ih (fed.write (nonzero b List.mem_cons_self)) fun d mem =>
      nonzero d (List.mem_cons_of_mem b mem)
  | @read v rest m m₁ m' results removed inside call later ih =>
    by_cases none : m.indexData c = 0
    · rw [Driver.readBuffer_run_empty m c none] at call
      cases call
      rw [front_empty none]
      exact ih fed nonzero
    · have positive := toNat_pos none
      have count := fed.count
      have oldest := fed.bytes 0 (by omega)
      rw [Driver.readBuffer_run m c fed.nonzero none, ringByte_zero fed.head] at call
      cases call
      rw [front_some none, List.filter_cons_of_pos (by simpa using oldest),
        ih (fed.read none) nonzero]
      rfl

theorem Run.removed_prefix {n : Nat} {r : Ring UInt8 n} {q : List UInt8}
    (run : Run c ops m results removed m') (encodes : Encodes m c r) (follows : r.Follows q 0)
    (within : StaysWithin n ops q.length) : removed <+: q ++ bytesWritten ops := by
  induction run generalizing r q with
  | nil m => exact List.nil_prefix
  | @write b rest m m₁ m' results removed inside call later ih =>
    obtain ⟨room, within⟩ := within
    rw [Driver.writeBuffer_run m c b encodes.pos] at call
    cases call
    have next := follows.put b
    have lead : 0 + (q.length + 1 - n) = 0 := by omega
    unfold offer at next
    rw [if_pos room, lead] at next
    have length : (q ++ [b]).length = q.length + 1 := List.length_append
    have taken := ih (encodes.written b).1 next (length ▸ within)
    rw [List.append_assoc] at taken
    exact taken
  | @read v rest m m₁ m' results removed inside call later ih =>
    have front : unread m c = q := by rw [encodes.unread, follows.unread (Nat.dvd_zero n)]
    have count : (m.indexData c).toNat = q.length := by rw [encodes.count, follows.count]
    rw [front]
    by_cases none : m.indexData c = 0
    · rw [Driver.readBuffer_run_empty m c none] at call
      cases call
      rw [none, UInt32.toNat_zero] at count
      have empty := List.length_eq_zero_iff.mp count.symm
      subst empty
      exact ih encodes follows within
    · have positive := toNat_pos none
      rw [Driver.readBuffer_run m c encodes.pos none] at call
      cases call
      obtain ⟨oldest, others, rfl⟩ := List.exists_cons_of_length_pos (by omega : 0 < q.length)
      have next : (r.release 1).Follows others 0 := follows.release (by simp)
      have taken := ih (encodes.consumed none).1 next within
      exact (List.prefix_cons_inj oldest).mpr taken

end runs

/-- A byte 0 that is read, and a read that finds nothing. -/
theorem zero_runs :
    Run 0 [.write 0, .read] pairsRam [0] [0] (Driver.consumed (Driver.written pairsRam 0 0) 0) ∧
      Run 0 [.read] pairsRam [0] [] pairsRam := by
  constructor
  · exact .write (by decide) (Driver.writeBuffer_run _ _ _ (by decide))
      (.read (by decide) (Driver.readBuffer_run _ _ (by decide) (by decide)) (.nil _))
  · exact .read (by decide) (Driver.readBuffer_run_empty _ _ rfl) (.nil _)

theorem not_toldApart {B : UInt8 → Prop} (zero : B 0) : ¬ ToldApart B := by
  intro apart
  obtain ⟨taken, nothing⟩ := zero_runs
  have writes : ∀ b ∈ bytesWritten [.write 0, .read], B b := by
    intro b mem
    rw [List.mem_singleton.mp mem]
    exact zero
  have none : ∀ b ∈ bytesWritten [.read], B b := by
    intro b mem
    cases mem
  have same := apart 0 0 pairsRam pairsRam pairsRam_left.init (by decide) pairsRam_left.init
    (by decide) _ _ writes none _ _ _ _ _ taken nothing
  cases same

/-- The results tell the reader what was taken exactly when no byte 0 is written. Then the bytes
    taken are the results, which `pru_read` passes on, without the zeros, and a prefix of the
    bytes written as long as no write meets the channel full. A ring that lies in `ring->data`
    has a run for every sequence of calls. -/
theorem told_apart_iff (B : UInt8 → Prop) :
    (ToldApart B ↔ ¬ B 0) ∧
    (¬ B 0 → ∀ m c, AfterInit m → 0 < (m.channelSize c).toNat →
      ∀ ops, (∀ b ∈ bytesWritten ops, B b) → ∀ results removed m', Run c ops m results removed m' →
        results.filter (· ≠ 0) = removed ∧
        (∀ (o : Outcomes) (length : Int32), length.toNatClampNeg = results.length →
          (∀ j < results.length, o.gives j = results[j]?) →
          ∀ pruData, (bytesRead o pruData length).filter (· ≠ 0) = removed) ∧
        (StaysWithin (m.channelSize c).toNat ops 0 → removed <+: bytesWritten ops)) ∧
    ∀ m c, AfterInit m → 0 < (m.channelSize c).toNat →
      (m.bufferStart c).toNat + (m.channelSize c).toNat ≤ totalBufferSize →
      ∀ ops, ∃ results removed m', Run c ops m results removed m' := by
  have rebuilt : ¬ B 0 → ∀ m c, AfterInit m → 0 < (m.channelSize c).toNat →
      ∀ ops, (∀ b ∈ bytesWritten ops, B b) → ∀ results removed m', Run c ops m results removed m' →
        results.filter (· ≠ 0) = removed := by
    intro absent m c init pos ops only results removed m' run
    apply run.removed_eq (AfterInit.fed init pos _)
    rintro b mem rfl
    exact absent (only 0 mem)
  refine ⟨?_, ?_, ?_⟩
  · constructor
    · intro apart zero
      exact not_toldApart zero apart
    · intro absent c c' m₀ m₀' init pos init' pos' ops ops' only only' results removed removed' m m'
        run run'
      rw [← rebuilt absent m₀ c init pos ops only results removed m run,
        ← rebuilt absent m₀' c' init' pos' ops' only' results removed' m' run']
  · intro absent m c init pos ops only results removed m' run
    have taken := rebuilt absent m c init pos ops only results removed m' run
    obtain ⟨r, encodes, follows⟩ := init.ring rfl pos
    constructor
    · exact taken
    · constructor
      · intro o length count gives pruData
        rw [bytesRead_eq o count gives]
        exact taken
      · intro within
        exact run.removed_prefix encodes follows within
  · intro m c init pos ring ops
    exact run_exists (AfterInit.fed init pos _) ring ops

/-- An empty channel and one that holds the byte 0 give the same result, and only the second
    loses a byte. -/
theorem zero_taken_for_none : AfterInit pairsRam ∧
    (∃ m m', Run 0 [.write 0, .read] pairsRam [0] [0] m ∧ Run 0 [.read] pairsRam [0] [] m') ∧
    ¬ ToldApart fun _ => True :=
  ⟨pairsRam_left.init, ⟨_, _, zero_runs⟩, not_toldApart trivial⟩

end PruBridge.NoData
