import PruBridge.Tracking

/-!
Streaming under flow control. Every channel has one writer, and a write is no longer
than a free space its writer saw since its previous write. The code then behaves as ten
FIFO queues that never lose a byte.
-/
namespace PruBridge.Streaming
open AtomicProgram CircularBuffer Firmware

/-- The writer of a channel looks at its free space, or somebody calls an operation. -/
inductive Action where
  | observe (c : Channel)
  | call (op : Op)

abbrev Seen := Channel → List Int32

structure Allowed (writer : Channel → Side) (seen : Seen) (op : Op) : Prop where
  nonneg : op.Nonneg
  single : op.IsWrite → op.side = writer op.channel
  room : op.IsWrite → ∃ k ∈ seen op.channel, (op.writes : Int) ≤ k.toInt

def Seen.after (seen : Seen) (op : Op) : Seen :=
  if op.IsWrite then Function.update seen op.channel [] else seen

def Guarded (writer : Channel → Side) : List Action → Ram → Seen → Prop
  | [], _, _ => True
  | .observe c :: rest, m, seen =>
    Guarded writer rest m (Function.update seen c (free m c :: seen c))
  | .call op :: rest, m, seen => Allowed writer seen op ∧
    ∀ out m', op.exec m = .ok (out, m') → Guarded writer rest m' (seen.after op)

def runActions : List Action → Ram → Except Fault (List Outcome × Ram)
  | [], m => .ok ([], m)
  | .observe _ :: rest, m => runActions rest m
  | .call op :: rest, m => match op.exec m with
    | .error e => .error e
    | .ok (out, m') => match runActions rest m' with
      | .error e => .error e
      | .ok (outs, m'') => .ok (out :: outs, m'')

abbrev Queues := Channel → List UInt8

def queueActions : List Action → Queues → List Outcome × Queues
  | [], queues => ([], queues)
  | .observe _ :: rest, queues => queueActions rest queues
  | .call op :: rest, queues =>
    let answer := op.onQueue (queues op.channel)
    let later := queueActions rest (Function.update queues op.channel answer.2)
    (answer.1 :: later.1, later.2)

/-- What a writer saw is still free: only its own writes take room away. -/
def Fresh (L : Layout) (queues : Queues) (seen : Seen) : Prop :=
  ∀ c, ∀ k ∈ seen c, k.toInt + (queues c).length ≤ L.size c

theorem onQueue_length_le {op : Op} (read : ¬ op.IsWrite) (q : List UInt8) :
    (op.onQueue q).2.length ≤ q.length := by
  cases op with
  | driverWrite c b => exact absurd trivial read
  | driverRead c => simp [Op.onQueue]
  | firmwareWrite c pruData length => exact absurd trivial read
  | firmwareRead c length =>
    simp only [Op.onQueue]
    split <;> simp

theorem writes_of_read {op : Op} (read : ¬ op.IsWrite) : op.writes = 0 := by
  cases op with
  | driverWrite c b => exact absurd trivial read
  | driverRead c => rfl
  | firmwareWrite c pruData length => exact absurd trivial read
  | firmwareRead c length => rfl

theorem free_toInt {L : Layout} {m : Ram} {queues : Queues} {lead : Channel → Nat}
    (tracks : Tracks L m queues lead) (c : Channel) :
    (free m c).toInt = L.size c - (queues c).length := by
  obtain ⟨r, encodes, follows⟩ := tracks.ring c
  rw [encodes.free (L.size_small c), follows.count]

theorem Fresh.observe {L : Layout} {m : Ram} {queues : Queues} {lead : Channel → Nat} {seen : Seen}
    (fresh : Fresh L queues seen) (tracks : Tracks L m queues lead) (c : Channel) :
    Fresh L queues (Function.update seen c (free m c :: seen c)) := by
  intro d k mem
  by_cases same : d = c
  · subst same
    rw [Function.update_self] at mem
    rcases List.mem_cons.mp mem with now | before
    · have value := free_toInt tracks d
      rw [now, value]
      omega
    · exact fresh d k before
  · rw [Function.update_of_ne same] at mem
    exact fresh d k mem

theorem Fresh.call {L : Layout} {queues : Queues} {seen : Seen} (fresh : Fresh L queues seen)
    (op : Op) :
    Fresh L (Function.update queues op.channel (op.onQueue (queues op.channel)).2)
      (seen.after op) := by
  intro d k mem
  by_cases write : op.IsWrite
  · simp only [Seen.after, write, ↓reduceIte] at mem
    by_cases same : d = op.channel
    · rw [same, Function.update_self] at mem
      simp at mem
    · rw [Function.update_of_ne same] at mem ⊢
      exact fresh d k mem
  · simp only [Seen.after, write, ↓reduceIte] at mem
    have before := fresh d k mem
    by_cases same : d = op.channel
    · have shorter := onQueue_length_le write (queues d)
      subst same
      rw [Function.update_self]
      omega
    · rwa [Function.update_of_ne same]

theorem Allowed.fits {L : Layout} {writer : Channel → Side} {queues : Queues} {seen : Seen}
    {op : Op} (allowed : Allowed writer seen op) (fresh : Fresh L queues seen)
    (le : (queues op.channel).length ≤ L.size op.channel) :
    (queues op.channel).length + op.writes ≤ L.size op.channel := by
  by_cases write : op.IsWrite
  · obtain ⟨k, mem, room⟩ := allowed.room write
    have here := fresh op.channel k mem
    omega
  · rw [writes_of_read write]
    exact le

theorem actions_simulate {L : Layout} {writer : Channel → Side}
    {actions : List Action} {m : Ram} {queues : Queues} {seen : Seen}
    (tracks : Tracks L m queues (fun _ => 0)) (fresh : Fresh L queues seen)
    (guarded : Guarded writer actions m seen) :
    ∃ m', runActions actions m = .ok ((queueActions actions queues).1, m') ∧
      Tracks L m' (queueActions actions queues).2 (fun _ => 0) := by
  induction actions generalizing m queues seen with
  | nil => exact ⟨m, rfl, tracks⟩
  | cons action rest ih =>
    cases action with
    | observe c => exact ih tracks (fresh.observe tracks c) guarded
    | call op =>
      obtain ⟨allowed, later⟩ := guarded
      obtain ⟨r, m₁, follows, run, -, next⟩ := tracks.exec op allowed.nonneg
      have fits := allowed.fits fresh follows.length_le
      have outcome := ringOutcome_eq op follows (Nat.dvd_zero _)
      have none : 0 + ((queues op.channel).length + op.writes - L.size op.channel) = 0 := by omega
      rw [offered_fits op fits, none, Function.update_eq_self_iff.mpr rfl] at next
      obtain ⟨m', rest_run, tracks'⟩ := ih next (fresh.call op) (later _ _ run)
      refine ⟨m', ?_, tracks'⟩
      simp only [runActions, run, rest_run, queueActions, outcome]

/-- Guarded streaming loses nothing: from any state an init left, every guarded run of
    whole operations answers call by call what ten FIFO queues answer, and leaves the
    queues as the unread bytes, counted by `index_data`. -/
theorem guarded_streaming_lossless (L : Layout) (m : Ram) (left : LeftByInit L m)
    (writer : Channel → Side) (actions : List Action)
    (guarded : Guarded writer actions m (fun _ => [])) :
    ∃ m', runActions actions m = .ok ((queueActions actions (fun _ => [])).1, m') ∧
      ∀ c, (m'.indexData c).toNat = ((queueActions actions (fun _ => [])).2 c).length ∧
        unread m' c = (queueActions actions (fun _ => [])).2 c := by
  have fresh : Fresh L (fun _ => []) (fun _ => []) := by
    intro c k mem
    simp at mem
  obtain ⟨m', run, tracks⟩ := actions_simulate left.tracks fresh guarded
  refine ⟨m', run, fun c => ⟨tracks.index c, ?_⟩⟩
  exact tracks.unread (Nat.dvd_zero _)

theorem guarded_streaming_one_byte :
    ∃ m', runActions [.observe 2, .call (.driverWrite 2 7), .call (.firmwareRead 2 1)] pairsRam =
        .ok ([⟨.void, []⟩, ⟨.int 0, [7]⟩], m') ∧
      ∀ c, (m'.indexData c).toNat = 0 ∧ unread m' c = [] := by
  have guarded : Guarded (fun _ => .arm)
      [.observe 2, .call (.driverWrite 2 7), .call (.firmwareRead 2 1)] pairsRam (fun _ => []) := by
    have room : ∃ k ∈ [free pairsRam 2], (1 : Int) ≤ k.toInt :=
      ⟨free pairsRam 2, by simp, by decide⟩
    refine ⟨⟨trivial, fun _ => rfl, fun _ => room⟩, ?_⟩
    intro out m' _
    exact ⟨⟨by decide, fun write => write.elim, fun write => write.elim⟩, fun _ _ _ => trivial⟩
  obtain ⟨m', run, queues⟩ := guarded_streaming_lossless pairs pairsRam pairsRam_left
    (fun _ => .arm) _ guarded
  have drained : ∀ c, (queueActions
      [.observe 2, .call (.driverWrite 2 7), .call (.firmwareRead 2 1)]
      (fun _ => [])).2 c = [] := by
    decide
  refine ⟨m', run, fun c => ?_⟩
  have here := queues c
  rwa [drained c] at here

end PruBridge.Streaming
