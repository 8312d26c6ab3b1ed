import PruBridge.ByteMemory
import PruBridge.StreamDelivery

/-!
The timing program (`firmware/Examples/4byte_time.c`, the same as `firmware/test.c`): each round
sends the four bytes of one delay, without a look at `check_index`. The ARM takes its samples with
`pru_read` of four bytes, which is four accesses to the file `ch1_read`. A sample is whole as long
as nothing comes between them.
-/
namespace PruBridge.Program
open AtomicProgram CircularBuffer Driver ByteMemory

structure Timer where
  rounds : Nat
  last : UInt32
  deriving DecidableEq

/-- `counts` are the readings of `PIEP_COUNT`, round by round, and `behind` is the memory from
    `&delay` on in each round: other locals may lie there. -/
def fourByteTime (counts : Nat → UInt32) (behind : Nat → Nat → UInt8) : Main Timer where
  first := ⟨0, 0⟩
  round t m :=
    let current := counts t.rounds
    let delay := current - t.last
    match (Op.firmwareWrite 0 (putWord (behind t.rounds) 0 delay) 4).exec m with
    | .error e => .error e
    | .ok (_, m') => .ok (⟨t.rounds + 1, current⟩, m')

/-- A turn as before, or `pru_read(1,(uint8_t *)(&pru_data),4)` with nothing in between. -/
inductive Sampling where
  | turn (t : Turn)
  | sample

def Sampling.turns : Sampling → List Turn
  | .turn t => [t]
  | .sample => List.replicate 4 (.arm (.channel (.read 0)))

/-- The bytes that `fread` takes: the first one of each text. -/
def bytesGot (replies : List (Option Reply)) : List UInt8 :=
  replies.filterMap fun
    | some (.text (b :: _)) => some b
    | _ => none

def last (counts : Nat → UInt32) : Nat → UInt32
  | 0 => 0
  | j + 1 => counts j

def delay (counts : Nat → UInt32) (j : Nat) : UInt32 := counts j - last counts j

def sent (counts : Nat → UInt32) (behind : Nat → Nat → UInt8) (j : Nat) : List UInt8 :=
  [behind j 4, byteOf (delay counts j) 3, byteOf (delay counts j) 2, byteOf (delay counts j) 1]

def sampleWord (bytes : List UInt8) : UInt32 := word (fun i => bytes.getD i 0) 0

def Point.rounds : Point Timer → Nat
  | .loop t => t.rounds
  | _ => 0

theorem sampleWord_sent_iff (counts : Nat → UInt32) (behind : Nat → Nat → UInt8) (j : Nat) :
    sampleWord (sent counts behind j) = delay counts j ↔
      byteOf (delay counts j) 0 = behind j 4 ∧
        byteOf (delay counts j) 1 = byteOf (delay counts j) 3 := by
  rw [sampleWord, word_eq_iff]
  constructor
  · intro same
    exact ⟨(same 0 (by omega)).symm, (same 1 (by omega)).symm⟩
  · rintro ⟨low, second⟩ k few
    rcases (by omega : k = 0 ∨ k = 1 ∨ k = 2 ∨ k = 3) with rfl | rfl | rfl | rfl
    · exact low.symm
    · exact second.symm
    · rfl
    · exact second

theorem reads_remembered {L : Layout} {m : Ram} {hs : Histories L} {σ : Type} (M : Main σ)
    (p : Point σ) (remembers : Remembers L m hs) (k : Nat) : ∃ m',
      Simulation.run M.step (List.replicate k (.arm (.channel (.read 0)))) (p, m) =
        .ok ((List.range k).map fun j => some (.text [(hs 0).waiting.getD j 0, 10]), (p, m')) ∧
      Remembers L m' (Function.update hs 0 ((hs 0).read k)) := by
  induction k generalizing m hs with
  | zero =>
    have none : (hs 0).read 0 = hs 0 := by
      simp [History.read]
    refine ⟨m, rfl, ?_⟩
    rwa [none, Function.update_eq_self]
  | succ k ih =>
    obtain ⟨m₁, run, -, remembers₁⟩ :=
      exec_after remembers (by trivial : (Op.driverRead 0).Nonneg)
    obtain ⟨reply, done, text⟩ := channel_run (.read 0) run
    have byte := text 0 ((hs 0).waiting.headD 0) rfl rfl
    change Remembers L m₁ (Function.update hs 0 ((hs 0).read 1)) at remembers₁
    obtain ⟨m', rest, remembers'⟩ := ih remembers₁
    rw [Function.update_self, Function.update_idem, History.read_read, Nat.add_comm] at remembers'
    rw [Function.update_self, History.waiting_read] at rest
    refine ⟨m', ?_, remembers'⟩
    have first : M.step (.arm (.channel (.read 0))) (p, m) = .ok (some reply, (p, m₁)) := by
      rw [Main.step, done]
    rw [List.replicate_succ, Simulation.run_cons_ok first rest, List.range_succ_eq_map, byte]
    simp [List.headD_eq_head?_getD, List.head?_eq_getElem?]

/-- The ARM leaves the writing of channel 1 and the reading of channel 2 to the firmware, and reads
    channel 1 in samples only. -/
def Samples : Sampling → Prop
  | .turn (.arm call) => Plain call ∧ call ≠ .channel (.read 0)
  | _ => True

structure Sampled (L : Layout) (counts : Nat → UInt32) (behind : Nat → Nat → UInt8)
    (turns : List Sampling) (replies : List (List (Option Reply))) (p : Point Timer) (m : Ram)
    (hs : Histories L) (n : Nat) : Prop where
  lengths : turns.length = replies.length
  remembers : Remembers L m hs
  tape : (hs 0).tape = ((List.range n).map (sent counts behind)).flatten
  taken : 4 ∣ (hs 0).taken
  count : 4 ∣ (hs 0).count
  rounds : p.rounds = n
  last : ∀ t, p = .loop t → t.last = last counts n
  samples : ∀ got, (.sample, got) ∈ turns.zip replies →
    bytesGot got = [0, 0, 0, 0] ∨ ∃ j, j < n ∧ bytesGot got = sent counts behind j

section sampling
variable {L : Layout} {counts : Nat → UInt32} {behind : Nat → Nat → UInt8} {turns : List Sampling}
  {replies : List (List (Option Reply))} {p : Point Timer} {m : Ram} {hs : Histories L} {n : Nat}

theorem Sampled.extend (sampled : Sampled L counts behind turns replies p m hs n) {t : Turn}
    {p' : Point Timer} {m' : Ram} {hs' : Histories L} (remembers : Remembers L m' hs')
    (first : hs' 0 = hs 0) (rounds : p'.rounds = n)
    (last : ∀ t, p' = .loop t → t.last = Program.last counts n) (reply : Option Reply) :
    Sampled L counts behind (turns ++ [.turn t]) (replies ++ [[reply]]) p' m' hs' n := by
  constructor
  · exact Simulation.length_snoc sampled.lengths _ _
  · exact remembers
  · rw [first, sampled.tape]
  · rw [first]
    exact sampled.taken
  · rw [first]
    exact sampled.count
  · exact rounds
  · exact last
  · intro got mem
    rcases (Simulation.mem_log_snoc sampled.lengths).mp mem with before | now
    · exact sampled.samples got before
    · cases now

theorem stored_eq (counts : Nat → UInt32) (behind : Nat → Nat → UInt8) (j : Nat) :
    storedBytes (putWord (behind j) 0 (delay counts j)) 4 = sent counts behind j := by
  have past : putWord (behind j) 0 (delay counts j) 4 = behind j 4 := putWord_outside (by omega)
  have inside : ∀ k, k < 4 →
      putWord (behind j) 0 (delay counts j) (0 + k) = byteOf (delay counts j) k :=
    fun k few => putWord_inside few
  have byte₁ := inside 1 (by omega)
  have byte₂ := inside 2 (by omega)
  have byte₃ := inside 3 (by omega)
  simp only [Nat.zero_add] at byte₁ byte₂ byte₃
  simp only [storedBytes, sent, past, byte₁, byte₂, byte₃]

theorem Sampled.send (aligned : 4 ∣ L.size 0) {t : Timer}
    (sampled : Sampled L counts behind turns replies (.loop t) m hs n) :
    ∃ p' m' hs', (fourByteTime counts behind).turn (.loop t) m = .ok (p', m') ∧
      Sampled L counts behind (turns ++ [.turn .pru]) (replies ++ [[none]]) p' m' hs' (n + 1) := by
  have rounds : t.rounds = n := sampled.rounds
  have current : counts n - t.last = delay counts n := by
    rw [sampled.last t rfl]
    rfl
  have nonneg : (Op.firmwareWrite 0 (putWord (behind n) 0 (delay counts n)) 4).Nonneg := by
    change (0 : Int32) ≤ 4
    decide
  obtain ⟨out, m', hs', run, told, remembers⟩ := exec_simulates L
    (.firmwareWrite 0 (putWord (behind n) 0 (delay counts n)) 4) m hs nonneg sampled.remembers
  cases told
  change Remembers L m' (Function.update hs 0 ((hs 0).write
    (storedBytes (putWord (behind n) 0 (delay counts n)) 4))) at remembers
  rw [stored_eq] at remembers
  refine ⟨.loop ⟨n + 1, counts n⟩, m', _, ?_, ?_, remembers, ?_, ?_, ?_, rfl, ?_, ?_⟩
  · simp only [Main.turn, fourByteTime, rounds, current, run]
  · exact Simulation.length_snoc sampled.lengths _ _
  · rw [Function.update_self]
    change (hs 0).tape ++ sent counts behind n = _
    rw [sampled.tape, List.range_succ, List.map_append, List.flatten_append]
    simp
  · rw [Function.update_self]
    exact sampled.taken
  · rw [Function.update_self]
    change 4 ∣ min ((hs 0).count + 4) (L.size 0)
    have count := sampled.count
    omega
  · intro t' same
    cases same
    rfl
  · intro got mem
    rcases (Simulation.mem_log_snoc sampled.lengths).mp mem with before | now
    · rcases sampled.samples got before with none | ⟨j, less, same⟩
      · exact Or.inl none
      · exact Or.inr ⟨j, by omega, same⟩
    · cases now

theorem sample_bytes (aligned : 4 ∣ L.size 0)
    (sampled : Sampled L counts behind turns replies p m hs n) :
    ((hs 0).count = 0 ∧ (List.range 4).map (fun j => (hs 0).waiting.getD j 0) = [0, 0, 0, 0]) ∨
      4 ≤ (hs 0).count ∧ ∃ j, j < n ∧
        (List.range 4).map (fun j => (hs 0).waiting.getD j 0) = sent counts behind j := by
  have length := (hs 0).waiting_length
  have count := sampled.count
  by_cases none : (hs 0).count = 0
  · rw [none, List.length_eq_zero_iff] at length
    refine Or.inl ⟨none, ?_⟩
    rw [length]
    rfl
  · have some : 4 ≤ (hs 0).count := by omega
    have whole : ∀ r ∈ (List.range n).map (sent counts behind), r.length = 4 := by
      intro r mem
      obtain ⟨j, -, rfl⟩ := List.mem_map.mp mem
      rfl
    obtain ⟨r, mem, record⟩ :=
      (hs 0).waiting_record sampled.tape whole aligned sampled.taken (by omega) some
    obtain ⟨j, less, rfl⟩ := List.mem_map.mp mem
    refine Or.inr ⟨some, j, List.mem_range.mp less, ?_⟩
    rw [← record]
    apply List.ext_getElem
    · rw [List.length_map, List.length_range, List.length_take]
      omega
    · intro i here there
      rw [List.length_map, List.length_range] at here
      rw [List.getElem_map, List.getElem_range, List.getElem_take, List.getD_eq_getElem?_getD,
        List.getElem?_eq_getElem (by omega)]
      rfl

theorem bytesGot_texts (bytes : List UInt8) :
    bytesGot (bytes.map fun b => some (.text [b, 10])) = bytes := by
  induction bytes with
  | nil => rfl
  | cons b rest ih => exact congrArg (b :: ·) ih

theorem Sampled.sample (aligned : 4 ∣ L.size 0)
    (sampled : Sampled L counts behind turns replies p m hs n) :
    ∃ got m' hs',
      Simulation.run (fourByteTime counts behind).step Sampling.sample.turns (p, m) =
        .ok (got, (p, m')) ∧
      Sampled L counts behind (turns ++ [.sample]) (replies ++ [got]) p m' hs' n := by
  obtain ⟨m', run, remembers⟩ :=
    reads_remembered (fourByteTime counts behind) p sampled.remembers 4
  have bytes := sample_bytes aligned sampled
  have texts := bytesGot_texts ((List.range 4).map fun j => (hs 0).waiting.getD j 0)
  rw [List.map_map] at texts
  refine ⟨_, m', _, run, ?_, remembers, ?_, ?_, ?_, sampled.rounds, sampled.last, ?_⟩
  · exact Simulation.length_snoc sampled.lengths _ _
  · rw [Function.update_self]
    exact sampled.tape
  · rw [Function.update_self]
    change 4 ∣ (hs 0).taken + min 4 (hs 0).count
    have taken := sampled.taken
    omega
  · rw [Function.update_self]
    change 4 ∣ (hs 0).count - 4
    have count := sampled.count
    omega
  · intro found mem
    rcases (Simulation.mem_log_snoc sampled.lengths).mp mem with before | now
    · exact sampled.samples found before
    · have same := texts
      rw [(Prod.mk.inj now).2]
      change bytesGot _ = _ at same
      rcases bytes with ⟨-, zeros⟩ | ⟨-, j, less, record⟩
      · exact Or.inl (same.trans zeros)
      · exact Or.inr ⟨j, less, same.trans record⟩

theorem Sampled.arm (sampled : Sampled L counts behind turns replies p m hs n) {call : Call}
    (plain : Plain call) (other : call ≠ .channel (.read 0)) :
    ∃ reply m' hs', call.body.run m = .ok (reply, m') ∧
      Sampled L counts behind (turns ++ [.turn (.arm call)]) (replies ++ [[some reply]]) p m' hs'
        n := by
  cases call with
  | init buf => exact plain.elim
  | channel call =>
    obtain ⟨m', run, -, remembers⟩ :=
      exec_after sampled.remembers (by cases call <;> trivial : (opOf call).Nonneg)
    obtain ⟨reply, done, -⟩ := channel_run call run
    have away : (opOf call).channel ≠ 0 := by
      cases call with
      | write c buf => exact plain
      | read c =>
        intro same
        have zero : c = 0 := served_eq_zero.mp same
        exact other (by rw [zero])
    exact ⟨reply, m', _, done, sampled.extend remembers (after_other _ hs (Ne.symm away))
      sampled.rounds sampled.last _⟩

theorem Sampled.pru (aligned : 4 ∣ L.size 0)
    (sampled : Sampled L counts behind turns replies p m hs n) :
    ∃ p' m' hs' n', (fourByteTime counts behind).turn p m = .ok (p', m') ∧
      Sampled L counts behind (turns ++ [.turn .pru]) (replies ++ [[none]]) p' m' hs' n' := by
  have rounds := sampled.rounds
  cases p with
  | waitInit =>
    refine ⟨_, m, hs, n, rfl, sampled.extend sampled.remembers rfl ?_ ?_ none⟩
    · rw [← rounds]
      split <;> rfl
    · intro t inside
      split at inside <;> cases inside
  | waitFlag =>
    obtain ⟨m', run, -, remembers⟩ := flag_turn (fourByteTime counts behind) sampled.remembers
    have zero : n = 0 := rounds.symm
    refine ⟨_, m', _, n, run,
      sampled.extend remembers (after_other _ _ (by decide)) ?_ ?_ none⟩
    · rw [zero]
      split <;> rfl
    · intro t inside
      split at inside
      · cases inside
      · cases inside
        rw [zero]
        rfl
  | loop t =>
    obtain ⟨p', m', hs', run, sampled'⟩ := sampled.send aligned
    exact ⟨p', m', hs', n + 1, run, sampled'⟩

theorem Sampled.block (sampled : Sampled L counts behind turns replies p m hs n)
    (aligned : 4 ∣ L.size 0) {block : Sampling} (ok : Samples block) : ∃ reply p' m' hs' n',
      Simulation.run (fourByteTime counts behind).step block.turns (p, m) =
        .ok (reply, (p', m')) ∧
      Sampled L counts behind (turns ++ [block]) (replies ++ [reply]) p' m' hs' n' := by
  cases block with
  | sample =>
    obtain ⟨got, m', hs', run, sampled'⟩ := sampled.sample aligned
    exact ⟨got, p, m', hs', n, run, sampled'⟩
  | turn t =>
    cases t with
    | pru =>
      obtain ⟨p', m', hs', n', run, sampled'⟩ := sampled.pru aligned
      have first : (fourByteTime counts behind).step .pru (p, m) = .ok (none, (p', m')) := by
        simp only [Main.step, run]
      exact ⟨[none], p', m', hs', n', Simulation.run_cons_ok first rfl, sampled'⟩
    | arm call =>
      obtain ⟨reply, m', hs', run, sampled'⟩ := sampled.arm ok.1 ok.2
      have first : (fourByteTime counts behind).step (.arm call) (p, m) =
          .ok (some reply, (p, m')) := by
        simp only [Main.step, run]
      exact ⟨[some reply], p, m', hs', n, Simulation.run_cons_ok first rfl, sampled'⟩

end sampling

/-- Samples are whole, overflows or not: in a channel whose size is a multiple of four, each
    `pru_read` of four bytes without a turn in between gives zeros or the four bytes of one round.
    As an `int` they are the delay of that round exactly when its lowest byte is the one behind it
    in memory and its second byte is its highest. -/
theorem time_program_samples (L : Layout) (m : Ram) (left : LeftByInit L m)
    (aligned : 4 ∣ L.size 0) (counts : Nat → UInt32) (behind : Nat → Nat → UInt8)
    (blocks : List Sampling) (plain : ∀ block ∈ blocks, Samples block) :
    ∃ replies p m', Simulation.run
        (fun block => Simulation.run (fourByteTime counts behind).step block.turns) blocks
          (.waitInit, m) = .ok (replies, (p, m')) ∧
      Simulation.run (fourByteTime counts behind).step (blocks.flatMap Sampling.turns)
        (.waitInit, m) = .ok (replies.flatten, (p, m')) ∧
      ∀ got, (.sample, got) ∈ blocks.zip replies → bytesGot got = [0, 0, 0, 0] ∨
        ∃ j, j < p.rounds ∧ bytesGot got = sent counts behind j ∧
          (sampleWord (bytesGot got) = delay counts j ↔
            byteOf (delay counts j) 0 = behind j 4 ∧
              byteOf (delay counts j) 1 = byteOf (delay counts j) 3) := by
  have start : ∃ hs n, Sampled L counts behind [] [] .waitInit m hs n := by
    refine ⟨_, 0, rfl, left.remembers, rfl, ?_, ?_, rfl, nofun, nofun⟩
    · exact Nat.dvd_zero 4
    · exact Nat.dvd_zero 4
  have each : ∀ (block : Sampling) (before : List Sampling) (replies : List (List (Option Reply)))
      (s : Point Timer × Ram), Samples block →
      (∃ hs n, Sampled L counts behind before replies s.1 s.2 hs n) →
      ∃ reply s', Simulation.run (fourByteTime counts behind).step block.turns s =
          .ok (reply, s') ∧
        ∃ hs n,
          Sampled L counts behind (before ++ [block]) (replies ++ [reply]) s'.1 s'.2 hs n := by
    rintro block before replies ⟨p, m⟩ ok ⟨hs, n, sampled⟩
    obtain ⟨reply, p', m', hs', n', run, sampled'⟩ := sampled.block aligned ok
    exact ⟨reply, (p', m'), run, hs', n', sampled'⟩
  obtain ⟨replies, ⟨p, m'⟩, run, hs, n, sampled⟩ :=
    Simulation.run_keeps each plain (m := (.waitInit, m)) start
  refine ⟨replies, p, m', run, Simulation.run_flatMap run, ?_⟩
  intro got mem
  rcases sampled.samples got mem with none | ⟨j, less, same⟩
  · exact Or.inl none
  · refine Or.inr ⟨j, ?_, same, ?_⟩
    · rw [sampled.rounds]
      exact less
    · rw [same]
      exact sampleWord_sent_iff counts behind j

def fours : Layout := ⟨fun _ => 4, by decide, by decide⟩

def foursText : Text := (List.replicate 10 [52, 32]).flatten

def foursRam : Ram := laidOut zeroRam fun _ => 4

theorem foursRam_left : LeftByInit fours foursRam := by
  have sizes : sizesAfter foursText zeroRam.channelSize = fun _ => 4 := by
    funext c
    fin_cases c <;> decide
  refine ⟨⟨foursText, zeroRam, strlen foursText + 1, by decide, ?_⟩, fun _ => rfl⟩
  rw [initChannels_run _ _ (by decide), sizes]
  rfl

def twoCounts (j : Nat) : UInt32 := 7 + 0x03020305 * UInt32.ofNat j

def twoRounds : List Sampling :=
  [.turn .pru, .turn (.arm (.channel (.write 1 [9]))), .turn .pru, .turn .pru, .turn .pru, .sample]

def fourTexts : List (Option Reply) :=
  [some (.text [5, 10]), some (.text [3, 10]), some (.text [2, 10]), some (.text [3, 10])]

/-- The sample is the second delay, whole. -/
theorem time_program_samples_overflow : ∃ p m',
    Simulation.run
        (fun block => Simulation.run (fourByteTime twoCounts fun _ _ => 5).step block.turns)
        twoRounds (.waitInit, foursRam) =
      .ok ([[none], [some (.count 2)], [none], [none], [none], fourTexts], (p, m')) ∧
    ∃ j, j < p.rounds ∧ [5, 3, 2, 3] = sent twoCounts (fun _ _ => 5) j ∧
      (sampleWord [5, 3, 2, 3] = delay twoCounts j ↔
        byteOf (delay twoCounts j) 0 = 5 ∧
          byteOf (delay twoCounts j) 1 = byteOf (delay twoCounts j) 3) := by
  obtain ⟨replies, p, m', run, -, samples⟩ := time_program_samples fours foursRam foursRam_left
    (Nat.dvd_refl 4) twoCounts (fun _ _ => 5) twoRounds (by simp [twoRounds, Samples, Plain])
  have ends : (Simulation.run
        (fun block => Simulation.run (fourByteTime twoCounts fun _ _ => 5).step block.turns)
        twoRounds (.waitInit, foursRam)).toOption.map (fun r => r.1) =
      some [[none], [some (.count 2)], [none], [none], [none], fourTexts] := by
    decide +kernel
  rw [run] at ends
  have answers := Option.some.inj ends
  subst answers
  refine ⟨p, m', run, ?_⟩
  rcases samples fourTexts (by simp [twoRounds]) with zeros | found
  · exact absurd zeros (by decide)
  · exact found

/-- With the second round after the second of the four accesses, the sample is torn. -/
example : (Simulation.run (fourByteTime twoCounts fun _ _ => 5).step
    [.pru, .arm (.channel (.write 1 [9])), .pru, .pru, .arm (.channel (.read 0)),
      .arm (.channel (.read 0)), .pru, .arm (.channel (.read 0)), .arm (.channel (.read 0))]
    (.waitInit, foursRam)).toOption.map (fun r => bytesGot r.1) = some [5, 0, 2, 3] := by
  decide +kernel

end PruBridge.Program
