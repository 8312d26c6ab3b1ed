import PruBridge.Operations

/-!
Runs of whole operations on all ten channels. `Leads` follows one channel through a run,
whatever the other nine are; `Tracks` follows ten disjoint rings and their queues.
-/
namespace PruBridge
open AtomicProgram CircularBuffer

def runOps : List Op → Ram → Except Fault (List Outcome × Ram)
  | [], m => .ok ([], m)
  | op :: rest, m => match op.exec m with
    | .error e => .error e
    | .ok (out, m') => match runOps rest m' with
      | .error e => .error e
      | .ok (outs, m'') => .ok (out :: outs, m'')

def excess (op : Op) (m : Ram) : Nat :=
  (m.indexData op.channel).toNat + op.writes - (m.channelSize op.channel).toNat

def overflow (c : Channel) : List Op → Ram → Nat
  | [], _ => 0
  | op :: rest, m => (if op.channel = c then excess op m else 0) +
    match op.exec m with
    | .error _ => 0
    | .ok (_, m') => overflow c rest m'

def NeverFull : List Op → Ram → Prop
  | [], _ => True
  | op :: rest, m => excess op m = 0 ∧
    match op.exec m with
    | .error _ => True
    | .ok (_, m') => NeverFull rest m'

theorem overflow_of_neverFull (c : Channel) {ops : List Op} {m : Ram} (never : NeverFull ops m) :
    overflow c ops m = 0 := by
  induction ops generalizing m with
  | nil => rfl
  | cons op rest ih =>
    obtain ⟨none, later⟩ := never
    simp only [overflow, none, ite_self, Nat.zero_add]
    cases run : op.exec m with
    | error e => rfl
    | ok result =>
      simp only [run] at later
      exact ih later

/-- Channel `c` is a ring of `n` bytes that holds some queue, with its tail `lead` places
    past the end of it. -/
def Leads (m : Ram) (c : Channel) (n lead : Nat) : Prop :=
  ∃ (r : Ring UInt8 n) (q : List UInt8), Encodes m c r ∧ r.Follows q lead

theorem AfterInit.leads {m : Ram} (init : AfterInit m) {c : Channel} {n : Nat}
    (size : (m.channelSize c).toNat = n) (pos : 0 < n) : Leads m c n 0 := by
  obtain ⟨r, encodes, follows⟩ := init.ring size pos
  exact ⟨r, [], encodes, follows⟩

/-- Another channel's operation may reach into the bytes of this ring. Into its words it would
    only get from outside `ring->data`. -/
theorem Leads.untouched {m m' : Ram} {c d : Channel} {n lead : Nat} (leads : Leads m c n lead)
    (same : Untouched d m m') (other : c ≠ d) : Leads m' c n lead := by
  obtain ⟨r, q, encodes, follows⟩ := leads
  let r' : Ring UInt8 n :=
    { r with cells := fun i => m'.data (m'.bufferStart c + UInt32.ofNat i) }
  have words : Encodes m' c r' := by
    refine ⟨?_, ?_, ?_, ?_, fun _ => rfl⟩
    · rw [same.channelSize, encodes.size]
    · rw [same.head c other, encodes.head]
    · rw [same.tail c other, encodes.tail]
    · rw [same.indexData c other, encodes.count]
  let q' := window r'.cells (around r.head lead) q.length
  have length : q'.length = q.length := window_length _ _ _
  refine ⟨r', q', words, ?_, ?_, ?_⟩
  · rw [length]; exact follows.count
  · rw [length]; exact follows.tail
  · rw [length]

theorem Leads.exec {m m' : Ram} {c : Channel} {n lead : Nat} {op : Op} {out : Outcome}
    (leads : Leads m c n lead) (small : n < 2 ^ 31) (nonneg : op.Nonneg)
    (run : op.exec m = .ok (out, m')) :
    Leads m' c n (lead + if op.channel = c then excess op m else 0) := by
  by_cases same : op.channel = c
  · obtain ⟨r, q, encodes, follows⟩ := leads
    subst same
    obtain ⟨m₁, ring, encodes', -⟩ := exec_ring op (fun _ => small) nonneg encodes
    rw [ring] at run
    cases run
    have count := encodes.count
    rw [follows.count] at count
    rw [if_pos rfl, excess, count, encodes.size]
    exact ⟨_, _, encodes', onRing_follows op follows⟩
  · rw [if_neg same]
    exact leads.untouched (exec_untouched run) (Ne.symm same)

theorem Leads.run {m m' : Ram} {c : Channel} {n lead : Nat} {ops : List Op} {outs : List Outcome}
    (leads : Leads m c n lead) (small : n < 2 ^ 31) (nonneg : ∀ op ∈ ops, op.Nonneg)
    (run : runOps ops m = .ok (outs, m')) : Leads m' c n (lead + overflow c ops m) := by
  induction ops generalizing m lead outs with
  | nil =>
    cases run
    exact leads
  | cons op rest ih =>
    simp only [runOps] at run
    split at run
    · cases run
    · rename_i out m₁ first
      split at run
      · cases run
      · rename_i outs' m₂ later
        cases run
        have here := leads.exec small (nonneg op (by simp)) first
        have done := ih here (fun o mem => nonneg o (by simp [mem])) later
        rwa [overflow, first, ← Nat.add_assoc]

structure Tracks (L : Layout) (m : Ram) (queue : Channel → List UInt8) (lead : Channel → Nat) :
    Prop where
  laid : Laid L m
  ring : ∀ c, ∃ r : Ring UInt8 (L.size c), Encodes m c r ∧ r.Follows (queue c) (lead c)

theorem LeftByInit.tracks {L : Layout} {m : Ram} (left : LeftByInit L m) :
    Tracks L m (fun _ => []) (fun _ => 0) :=
  ⟨left.laid, fun c => left.init.ring (left.size c) (L.positive c)⟩

theorem Tracks.exec {L : Layout} {m : Ram} {queue : Channel → List UInt8} {lead : Channel → Nat}
    (tracks : Tracks L m queue lead) (op : Op) (nonneg : op.Nonneg) :
    ∃ r : Ring UInt8 (L.size op.channel), ∃ m', r.Follows (queue op.channel) (lead op.channel) ∧
      op.exec m = .ok (op.ringOutcome r, m') ∧ Frame op.channel m m' ∧ Tracks L m'
        (Function.update queue op.channel (op.offered (L.size op.channel) (queue op.channel)))
        (Function.update lead op.channel (lead op.channel +
          ((queue op.channel).length + op.writes - L.size op.channel))) := by
  have laid := tracks.laid
  obtain ⟨r, encodes, follows⟩ := tracks.ring op.channel
  obtain ⟨m', run, encodes', frame⟩ :=
    exec_ring op (fun _ => L.size_small op.channel) nonneg encodes
  refine ⟨r, m', follows, run, frame, laid.frame frame, fun d => ?_⟩
  by_cases same : d = op.channel
  · subst same
    rw [Function.update_self, Function.update_self]
    exact ⟨_, encodes', onRing_follows op follows⟩
  · obtain ⟨s, encodesd, followsd⟩ := tracks.ring d
    rw [Function.update_of_ne same, Function.update_of_ne same]
    exact ⟨s, encodesd.frame laid same frame, followsd⟩

theorem Tracks.index {L : Layout} {m : Ram} {queue : Channel → List UInt8}
    {lead : Channel → Nat} (tracks : Tracks L m queue lead) (c : Channel) :
    (m.indexData c).toNat = (queue c).length := by
  obtain ⟨r, encodes, follows⟩ := tracks.ring c
  rw [encodes.count, follows.count]

theorem Tracks.unread {L : Layout} {m : Ram} {queue : Channel → List UInt8}
    {lead : Channel → Nat} (tracks : Tracks L m queue lead) {c : Channel}
    (turns : L.size c ∣ lead c) : unread m c = queue c := by
  obtain ⟨r, encodes, follows⟩ := tracks.ring c
  rw [encodes.unread, follows.unread turns]

end PruBridge
