import PruBridge.StreamProgram

/-!
What the streaming program delivers. The tape of channel 1 holds one byte over and over, that of
channel 2 the flags of the ARM; the program is past its second loop when it has read a flag that
is not zero.
-/
namespace PruBridge.Program
open AtomicProgram CircularBuffer Driver

def opOf : ChannelCall → Op
  | .write n buf => .driverWrite n (buf.headD 0)
  | .read n => .driverRead (served n)

theorem channel_run (call : ChannelCall) {m m' : Ram} {out : Outcome}
    (run : (opOf call).exec m = .ok (out, m')) :
    ∃ reply, (Call.channel call).body.run m = .ok (reply, m') ∧
      ∀ n b, call = .read n → out.ret = .byte b → reply = .text [b, 10] := by
  cases call with
  | write n buf =>
    obtain ⟨ret, body⟩ := run_of_exec run
    obtain ⟨_, wrote, -⟩ := Prog.exists_of_run_map body
    replace wrote : (writeBuffer n (buf.headD 0)).run m = .ok ((), m') := wrote
    refine ⟨.count (strlen buf + 1), ?_, nofun⟩
    have handler : (chWrite n buf).run m = .ok (strlen buf + 1, m') := by
      rw [chWrite, writeBufferWrapper, Prog.run_bind_ok wrote]
      rfl
    rw [← writeHandler_eq] at handler
    exact Prog.run_map_ok handler
  | read n =>
    obtain ⟨ret, body⟩ := run_of_exec run
    rw [exec_of_run _ body] at run
    obtain ⟨b, got, rfl⟩ := Prog.exists_of_run_map body
    cases run
    replace got : (readBuffer (served n)).run m = .ok (b, m') := got
    refine ⟨.text [b, 10], ?_, ?_⟩
    · have handler : (chRead (served n)).run m = .ok ([b, 10], m') := by
        rw [chRead, Prog.run_bind_ok got]
        rfl
      rw [← readHandler_eq] at handler
      exact Prog.run_map_ok handler
    · intro _ b' _ same
      cases same
      rfl

/-- The ARM leaves the writing of channel 1 and the reading of channel 2 to the firmware. -/
def Plain : Call → Prop
  | .init _ => False
  | .channel (.write n _) => n ≠ 0
  | .channel (.read n) => n ≠ 1

def gotBy : Turn × Option Reply → List Text
  | (.arm (.channel (.read n)), some (.text out)) => if n = 0 then [out] else []
  | _ => []

def texts (turns : List Turn) (replies : List (Option Reply)) : List Text :=
  (turns.zip replies).flatMap gotBy

def Flagged (turns : List Turn) : Prop :=
  ∃ buf, .arm (.channel (.write 1 buf)) ∈ turns ∧ buf.headD 0 ≠ 0

/-- A run of the streaming program that sends the byte `b`. The ARM gets `b` or nothing, what
    waits is `b`, nothing is sent before the ARM has written a flag that is not zero, and `i`
    counts the bytes. -/
structure Delivered (b : UInt8) (turns : List Turn) (got : List Text) (p : Point UInt8) (m : Ram) :
    Prop where
  texts : ∀ text ∈ got, text = [b, 10] ∨ text = [0, 10]
  waiting : unread m 0 = List.replicate (m.indexData 0).toNat b
  closed : (∀ i, p ≠ .loop i) → m.indexData 0 = 0 ∧ ∀ text ∈ got, text = [0, 10]
  flagged : ∀ i, p = .loop i → Flagged turns
  counted : ∀ i, p = .loop i → b ≠ 0 →
    i = UInt8.ofNat (got.count [b, 10] + (m.indexData 0).toNat)

/-- The same, with the tapes of all bytes written. -/
structure Going (L : Layout) (b : UInt8) (turns : List Turn) (replies : List (Option Reply))
    (p : Point UInt8) (m : Ram) (hs : Histories L) (n : Nat) : Prop where
  lengths : turns.length = replies.length
  remembers : Remembers L m hs
  tape : (hs 0).tape = List.replicate n b
  whole : (hs 0).taken + (hs 0).count = n
  flags : ∀ x ∈ (hs 1).tape, ∃ buf, .arm (.channel (.write 1 buf)) ∈ turns ∧ buf.headD 0 = x
  got : ∀ text ∈ texts turns replies, text = [b, 10] ∨ text = [0, 10]
  taken : b ≠ 0 → (texts turns replies).count [b, 10] = (hs 0).taken
  closed : (∀ i, p ≠ .loop i) → n = 0 ∧ ∀ text ∈ texts turns replies, text = [0, 10]
  looping : ∀ i, p = .loop i → i = UInt8.ofNat n ∧ Flagged turns

def after {L : Layout} (op : Op) (hs : Histories L) : Histories L :=
  Function.update hs op.channel (op.onHistory (hs op.channel)).2

/-- What the second waiting loop finds in `check_flag`. -/
def flagByte {L : Layout} (hs : Histories L) : UInt8 :=
  ((Op.firmwareRead 1 1).onHistory (hs 1)).1.bytes.headD 0

/-- The streaming program that sends the byte `b`, and the accesses beside it, on the tapes. -/
def follow {L : Layout} (b : UInt8) : Turn → Point UInt8 × Histories L → Point UInt8 × Histories L
  | .arm (.channel call), (p, hs) => (p, after (opOf call) hs)
  | .arm (.init _), s => s
  | .pru, (.waitInit, hs) => (.waitFlag, hs)
  | .pru, (.waitFlag, hs) =>
    (if flagByte hs = 0 then .waitFlag else .loop 0, after (.firmwareRead 1 1) hs)
  | .pru, (.loop i, hs) =>
    if (hs 0).count < L.size 0 then (.loop (i + 1), Function.update hs 0 ((hs 0).write [b]))
    else (.loop i, hs)

def followed {L : Layout} (b : UInt8) (turns : List Turn) : Point UInt8 × Histories L :=
  turns.foldl (fun s turn => follow b turn s) (.waitInit, fun _ => History.empty)

section delivery
variable {L : Layout} {b : UInt8} {turns : List Turn} {replies : List (Option Reply)}
  {p : Point UInt8} {m : Ram} {hs : Histories L} {n : Nat}

theorem texts_append (same : turns.length = replies.length) (turn : Turn) (reply : Option Reply) :
    texts (turns ++ [turn]) (replies ++ [reply]) = texts turns replies ++ gotBy (turn, reply) := by
  simp [texts, List.zip_append same]

theorem waiting_of_tape (h : History UInt8 n) {k : Nat} (tape : h.tape = List.replicate k b) :
    h.waiting = List.replicate h.count b := by
  rw [List.eq_replicate_iff]
  refine ⟨h.waiting_length, fun x mem => ?_⟩
  have inside := h.mem_tape_of_waiting mem
  rw [tape] at inside
  exact List.eq_of_mem_replicate inside

theorem Flagged.later (flagged : Flagged turns) (turn : Turn) : Flagged (turns ++ [turn]) := by
  obtain ⟨buf, written, some⟩ := flagged
  exact ⟨buf, List.mem_append_left _ written, some⟩

theorem Going.flags_later (going : Going L b turns replies p m hs n) (turn : Turn) {x : UInt8}
    (mem : x ∈ (hs 1).tape) :
    ∃ buf, .arm (.channel (.write 1 buf)) ∈ turns ++ [turn] ∧ buf.headD 0 = x := by
  obtain ⟨buf, written, byte⟩ := going.flags x mem
  exact ⟨buf, List.mem_append_left _ written, byte⟩

theorem Going.delivered (going : Going L b turns replies p m hs n) :
    Delivered b turns (texts turns replies) p m := by
  obtain ⟨r, encodes, records⟩ := going.remembers.ring 0
  have count : (m.indexData 0).toNat = (hs 0).count := by
    rw [encodes.count, records.count]
  have waits := waiting_of_tape (hs 0) going.tape
  have whole := going.whole
  refine ⟨going.got, ?_, ?_, ?_, ?_⟩
  · rw [encodes.unread, records.unread, waits, count]
  · intro outside
    obtain ⟨none, texts⟩ := going.closed outside
    refine ⟨UInt32.toNat_inj.mp ?_, texts⟩
    rw [count]
    change (hs 0).count = 0
    omega
  · exact fun i inside => (going.looping i inside).2
  · intro i inside nonzero
    rw [going.taken nonzero, count, whole]
    exact (going.looping i inside).1

theorem Going.extend (going : Going L b turns replies p m hs n) {turn : Turn}
    {reply : Option Reply} {m' : Ram} {hs' : Histories L} (silent : gotBy (turn, reply) = [])
    (remembers : Remembers L m' hs') (first : hs' 0 = hs 0)
    (flags : ∀ x ∈ (hs' 1).tape, x ∈ (hs 1).tape ∨
      ∃ buf, turn = .arm (.channel (.write 1 buf)) ∧ buf.headD 0 = x) :
    Going L b (turns ++ [turn]) (replies ++ [reply]) p m' hs' n := by
  have same : texts (turns ++ [turn]) (replies ++ [reply]) = texts turns replies := by
    rw [texts_append going.lengths, silent, List.append_nil]
  constructor
  · exact Simulation.length_snoc going.lengths _ _
  · exact remembers
  · rw [first, going.tape]
  · rw [first, going.whole]
  · intro x mem
    rcases flags x mem with before | ⟨buf, now, byte⟩
    · exact going.flags_later turn before
    · exact ⟨buf, List.mem_append_right _ (by simp [now]), byte⟩
  · rw [same]
    exact going.got
  · rw [same, first]
    exact going.taken
  · rw [same]
    exact going.closed
  · intro i inside
    obtain ⟨count, flagged⟩ := going.looping i inside
    exact ⟨count, flagged.later _⟩

theorem Going.moved (going : Going L b turns replies p m hs n) {p' : Point UInt8}
    (outside : ∀ i, p ≠ .loop i) (enters : ∀ i, p' = .loop i → i = 0 ∧ Flagged turns) :
    Going L b turns replies p' m hs n := by
  obtain ⟨none, texts⟩ := going.closed outside
  refine { going with closed := fun _ => ⟨none, texts⟩, looping := ?_ }
  intro i inside
  obtain ⟨first, flagged⟩ := enters i inside
  rw [first, none]
  exact ⟨rfl, flagged⟩

theorem served_eq_zero {c : Channel} : served c = 0 ↔ c = 0 := by
  revert c
  decide

theorem served_eq_one {c : Channel} : served c = 1 ↔ c = 1 := by
  revert c
  decide

/-- A read of channel 1: the byte `b`, or a zero when there is none. -/
theorem Going.read (going : Going L b turns replies p m hs n) {m' : Ram}
    (remembers : Remembers L m' (Function.update hs 0 ((hs 0).read 1))) :
    Going L b (turns ++ [.arm (.channel (.read 0))])
      (replies ++ [some (.text [(hs 0).waiting.headD 0, 10])]) p m'
      (Function.update hs 0 ((hs 0).read 1)) n := by
  have waits := waiting_of_tape (hs 0) going.tape
  have whole := going.whole
  have flags : Function.update hs 0 ((hs 0).read 1) 1 = hs 1 :=
    Function.update_of_ne (by decide) _ _
  have longer : texts (turns ++ [.arm (.channel (.read 0))])
      (replies ++ [some (.text [(hs 0).waiting.headD 0, 10])]) =
        texts turns replies ++ [[(hs 0).waiting.headD 0, 10]] := texts_append going.lengths _ _
  have byte : (hs 0).waiting.headD 0 = if (hs 0).count = 0 then 0 else b := by
    rw [waits]
    cases (hs 0).count <;> rfl
  constructor
  · exact Simulation.length_snoc going.lengths _ _
  · exact remembers
  · rw [Function.update_self]
    exact going.tape
  · rw [Function.update_self]
    change (hs 0).taken + min 1 (hs 0).count + ((hs 0).count - 1) = n
    omega
  · rw [flags]
    exact fun x mem => going.flags_later _ mem
  · rw [longer]
    intro text mem
    rcases List.mem_append.mp mem with before | now
    · exact going.got text before
    · rw [List.mem_singleton.mp now, byte]
      split
      · exact Or.inr rfl
      · exact Or.inl rfl
  · intro nonzero
    have before := going.taken nonzero
    rw [longer, Function.update_self, List.count_append, before, byte]
    change _ = (hs 0).taken + min 1 (hs 0).count
    split
    · rename_i none
      rw [none]
      have apart : ([0, 10] : Text) ≠ [b, 10] := by
        intro same
        exact nonzero (List.cons.inj same).1.symm
      rw [List.count_singleton, if_neg (by simpa using apart)]
      rfl
    · rw [List.count_singleton_self]
      omega
  · intro outside
    obtain ⟨none, zeros⟩ := going.closed outside
    refine ⟨none, ?_⟩
    rw [longer]
    intro text mem
    rcases List.mem_append.mp mem with before | now
    · exact zeros text before
    · have empty : (hs 0).count = 0 := by omega
      rw [List.mem_singleton.mp now, byte, if_pos empty]
  · intro i inside
    obtain ⟨count, flagged⟩ := going.looping i inside
    exact ⟨count, flagged.later _⟩

theorem after_other (op : Op) (hs : Histories L) {c : Channel} (other : c ≠ op.channel) :
    after op hs c = hs c := Function.update_of_ne other _ _

theorem after_same (op : Op) (hs : Histories L) {c : Channel} (same : op.channel = c) :
    after op hs c = (op.onHistory (hs c)).2 := by
  subst same
  exact Function.update_self _ _ _

theorem exec_after (remembers : Remembers L m hs) {op : Op} (nonneg : op.Nonneg) :
    ∃ m', op.exec m = .ok ((op.onHistory (hs op.channel)).1, m') ∧
      m'.initCheck = m.initCheck ∧ Remembers L m' (after op hs) := by
  obtain ⟨out, m', hs', run, told, remembers'⟩ := exec_simulates L op m hs nonneg remembers
  cases told
  exact ⟨m', run, (exec_untouched run).initCheck, remembers'⟩

theorem Going.arm (going : Going L b turns replies p m hs n) {call : Call} (plain : Plain call) :
    ∃ reply m', call.body.run m = .ok (reply, m') ∧ m'.initCheck = m.initCheck ∧
      Going L b (turns ++ [.arm call]) (replies ++ [some reply]) p m'
        (follow b (.arm call) (p, hs)).2 n := by
  cases call with
  | init buf => exact plain.elim
  | channel call =>
    obtain ⟨m', run, flag, remembers⟩ :=
      exec_after going.remembers (by cases call <;> trivial : (opOf call).Nonneg)
    obtain ⟨reply, done, text⟩ := channel_run call run
    cases call with
    | write c buf =>
      let op := Op.driverWrite c (buf.headD 0)
      have next : (follow b (.arm (.channel (.write c buf))) (p, hs)).2 = after op hs := rfl
      rw [next]
      refine ⟨reply, m', done, flag,
        going.extend rfl remembers (after_other op hs (Ne.symm plain)) ?_⟩
      intro x mem
      by_cases same : c = 1
      · rw [after_same op hs same] at mem
        rcases List.mem_append.mp mem with before | now
        · exact Or.inl before
        · exact Or.inr ⟨buf, by rw [same], (List.mem_singleton.mp now).symm⟩
      · rw [after_other op hs (Ne.symm same)] at mem
        exact Or.inl mem
    | read c =>
      let op := Op.driverRead (served c)
      have next : (follow b (.arm (.channel (.read c))) (p, hs)).2 = after op hs := rfl
      rw [next]
      have answer := text c _ rfl rfl
      subst answer
      by_cases same : c = 0
      · subst same
        exact ⟨_, m', done, flag, going.read remembers⟩
      · have silent : ∀ reply, gotBy (.arm (.channel (.read c)), reply) = [] := by
          intro reply
          cases reply with
          | none => rfl
          | some reply => cases reply <;> simp [gotBy, same]
        have first : served c ≠ 0 := fun zero => same (served_eq_zero.mp zero)
        have second : served c ≠ 1 := fun one => plain (served_eq_one.mp one)
        refine ⟨_, m', done, flag, going.extend (silent _) remembers
          (after_other op hs first.symm) fun x mem => Or.inl ?_⟩
        rwa [after_other op hs second.symm] at mem

theorem Remembers.prepare (remembers : Remembers L m hs) (op : Op) :
    Remembers L (op.prepare m) hs := by
  refine ⟨remembers.laid.frame (prepare_frame op 0 m), fun c => ?_⟩
  obtain ⟨r, encodes, records⟩ := remembers.ring c
  exact ⟨r, encodes.prepare op, records⟩

theorem free_iff (remembers : Remembers L m hs) (c : Channel) :
    Firmware.free m c ≠ 0 ↔ (hs c).count < L.size c := by
  obtain ⟨r, encodes, records⟩ := remembers.ring c
  have value := encodes.free (L.size_small c)
  have count := records.count
  have le := (hs c).count_le
  rw [ne_eq, ← Int32.toInt_inj, value, Int32.toInt_zero]
  omega

theorem read_tape (c : Channel) (length : Int32) (h : History UInt8 n) :
    ((Op.firmwareRead c length).onHistory h).2.tape = h.tape := by
  simp only [Op.onHistory]
  split <;> rfl

theorem read_bytes (c : Channel) (length : Int32) (h : History UInt8 n) {x : UInt8}
    (mem : x ∈ ((Op.firmwareRead c length).onHistory h).1.bytes) : x ∈ h.tape := by
  simp only [Op.onHistory] at mem
  split at mem
  · exact h.mem_tape_of_waiting (List.mem_of_mem_take mem)
  · exact absurd mem List.not_mem_nil

theorem headD_mem {xs : List UInt8} (some : xs.headD 0 ≠ 0) : xs.headD 0 ∈ xs := by
  cases xs with
  | nil => exact absurd rfl some
  | cons x xs => exact List.mem_cons_self

/-- The second waiting loop takes bytes of channel 2 until one is not zero. -/
theorem flag_turn {σ : Type} (M : Main σ) (remembers : Remembers L m hs) :
    ∃ m', M.turn .waitFlag m =
        .ok (if flagByte hs = 0 then .waitFlag else .loop M.first, m') ∧
      m'.initCheck = m.initCheck ∧ Remembers L m' (after (.firmwareRead 1 1) hs) := by
  obtain ⟨m', run, flag, remembers'⟩ :=
    exec_after remembers (by decide : (Op.firmwareRead 1 1).Nonneg)
  exact ⟨m', by rw [Main.turn, run]; rfl, flag, remembers'⟩

theorem flag_tape (hs : Histories L) :
    (after (.firmwareRead 1 1) hs 1).tape = (hs 1).tape := by
  rw [← read_tape 1 1 (hs 1)]
  exact congrArg History.tape (Function.update_self 1 _ hs)

theorem flagByte_mem (some : flagByte hs ≠ 0) : flagByte hs ∈ (hs 1).tape :=
  read_bytes 1 1 (hs 1) (headD_mem some)

/-- A flag that the program has read was written by the ARM. -/
theorem Going.flag (going : Going L b turns replies .waitFlag m hs n) (behind : Nat → UInt8) :
    ∃ m', (byteStreamWrite behind).turn .waitFlag m =
        .ok ((follow b .pru (.waitFlag, hs)).1, m') ∧ m'.initCheck = m.initCheck ∧
      Going L b (turns ++ [.pru]) (replies ++ [none]) (follow b .pru (.waitFlag, hs)).1 m'
        (follow b .pru (.waitFlag, hs)).2 n := by
  obtain ⟨m', run, flag, remembers⟩ := flag_turn (byteStreamWrite behind) going.remembers
  have going' : Going L b (turns ++ [.pru]) (replies ++ [none]) .waitFlag m'
      (after (.firmwareRead 1 1) hs) n := by
    refine going.extend rfl remembers (after_other _ hs (by decide)) fun x mem => Or.inl ?_
    rwa [flag_tape] at mem
  refine ⟨m', run, flag, going'.moved nofun ?_⟩
  intro i inside
  simp only [follow] at inside
  split at inside
  · cases inside
  · rename_i up
    cases inside
    obtain ⟨buf, written, same⟩ := going.flags_later .pru (flagByte_mem up)
    refine ⟨rfl, buf, written, ?_⟩
    rw [same]
    exact up

/-- A byte that the loop sends where the channel has a place. -/
theorem Going.send {i : UInt8} (going : Going L b turns replies (.loop i) m hs n) {m' : Ram}
    (less : (hs 0).count < L.size 0)
    (remembers : Remembers L m' (Function.update hs 0 ((hs 0).write [b]))) :
    Going L b (turns ++ [.pru]) (replies ++ [none]) (.loop (i + 1)) m'
      (Function.update hs 0 ((hs 0).write [b])) (n + 1) := by
  have whole := going.whole
  have tape := going.tape
  have flags : Function.update hs 0 ((hs 0).write [b]) 1 = hs 1 :=
    Function.update_of_ne (by decide) _ _
  have same : texts (turns ++ [.pru]) (replies ++ [none]) = texts turns replies := by
    rw [texts_append going.lengths]
    exact List.append_nil _
  constructor
  · exact Simulation.length_snoc going.lengths _ _
  · exact remembers
  · rw [Function.update_self]
    change (hs 0).tape ++ [b] = _
    rw [tape, List.replicate_succ']
  · rw [Function.update_self]
    change (hs 0).taken + min ((hs 0).count + 1) (L.size 0) = n + 1
    omega
  · rw [flags]
    exact fun x mem => going.flags_later _ mem
  · rw [same]
    exact going.got
  · rw [same, Function.update_self]
    exact going.taken
  · exact fun outside => absurd rfl (outside (i + 1))
  · intro i' inside
    cases inside
    obtain ⟨count, flagged⟩ := going.looping i rfl
    refine ⟨?_, flagged.later _⟩
    rw [count, UInt8.ofNat_add]
    rfl

theorem Going.pru {behind : Nat → UInt8} (going : Going L (behind 1) turns replies p m hs n)
    (ready : m.initCheck = 1) :
    ∃ m' n', (byteStreamWrite behind).turn p m =
        .ok ((follow (behind 1) .pru (p, hs)).1, m') ∧ m'.initCheck = m.initCheck ∧
      Going L (behind 1) (turns ++ [.pru]) (replies ++ [none]) (follow (behind 1) .pru (p, hs)).1
        m' (follow (behind 1) .pru (p, hs)).2 n' := by
  cases p with
  | waitInit =>
    have same : Going L (behind 1) (turns ++ [.pru]) (replies ++ [none]) .waitInit m hs n :=
      going.extend rfl going.remembers rfl fun x mem => Or.inl mem
    have up : Firmware.checkInit.run m = .ok (1, m) := by
      simp [Firmware.checkInit, ready]
    exact ⟨m, n, by rw [Main.turn, up]; rfl, rfl, same.moved nofun nofun⟩
  | waitFlag =>
    obtain ⟨m', run, flag, going'⟩ := going.flag behind
    exact ⟨m', n, run, flag, going'⟩
  | loop i =>
    have nonneg : (Op.firmwareWrite 0 (localByte i behind) 1).Nonneg := by
      change (0 : Int32) ≤ 1
      decide
    by_cases room : Firmware.free m 0 ≠ 0
    · have less := (free_iff going.remembers 0).mp room
      obtain ⟨m', run, flag, remembers⟩ := exec_after going.remembers nonneg
      refine ⟨m', n + 1, ?_, flag, ?_⟩
      · rw [Main.turn, round_eq, if_pos room, run, follow, if_pos less]
      · rw [follow, if_pos less]
        exact going.send less remembers
    · have full := mt (free_iff going.remembers 0).mpr room
      refine ⟨{ m with pruData := localByte i behind }, n, ?_, rfl, ?_⟩
      · rw [Main.turn, round_eq, if_neg room, follow, if_neg full]
      · rw [follow, if_neg full]
        exact going.extend rfl
          (Remembers.prepare going.remembers (.firmwareWrite 0 (localByte i behind) 1)) rfl
          fun x mem => Or.inl mem

theorem init_up (left : LeftByInit L m) : m.initCheck = 1 := by
  obtain ⟨m₀, same⟩ := left.init.laidOut
  rw [same]
  rfl

/-- Every run of the streaming program, and of accesses beside it, goes as on the tapes. -/
theorem stream_follows (left : LeftByInit L m) (behind : Nat → UInt8) (turns : List Turn)
    (plain : ∀ call, .arm call ∈ turns → Plain call) :
    ∃ replies m' n, Simulation.run (byteStreamWrite behind).step turns (.waitInit, m) =
        .ok (replies, ((followed (L := L) (behind 1) turns).1, m')) ∧
      Going L (behind 1) turns replies (followed (L := L) (behind 1) turns).1 m'
        (followed (behind 1) turns).2 n := by
  have start : Going L (behind 1) [] [] .waitInit m (fun _ => History.empty) 0 := by
    refine ⟨rfl, left.remembers, rfl, rfl, nofun, nofun, fun _ => rfl, ?_, nofun⟩
    exact fun _ => ⟨rfl, nofun⟩
  let inv (turns : List Turn) (replies : List (Option Reply)) (s : Point UInt8 × Ram) : Prop :=
    s.1 = (followed (L := L) (behind 1) turns).1 ∧ s.2.initCheck = 1 ∧
      ∃ n, Going L (behind 1) turns replies s.1 s.2 (followed (behind 1) turns).2 n
  have begun : inv [] [] (.waitInit, m) := ⟨rfl, init_up left, 0, start⟩
  have each : ∀ (turn : Turn) (before : List Turn) (replies : List (Option Reply))
      (s : Point UInt8 × Ram), (∀ call, turn = .arm call → Plain call) → inv before replies s →
      ∃ reply s', (byteStreamWrite behind).step turn s = .ok (reply, s') ∧
        inv (before ++ [turn]) (replies ++ [reply]) s' := by
    rintro turn before replies ⟨p, m⟩ ok ⟨same, ready, n, going⟩
    have next : followed (L := L) (behind 1) (before ++ [turn]) =
        follow (behind 1) turn (p, (followed (behind 1) before).2) := by
      rw [followed, List.foldl_append]
      change follow (behind 1) turn (followed (behind 1) before) = _
      change p = _ at same
      rw [same]
    cases turn with
    | pru =>
      obtain ⟨m', n', run, flag, going'⟩ := going.pru ready
      rw [← next] at run going'
      exact ⟨none, (_, m'), by rw [Main.step, run], rfl, flag.trans ready, n', going'⟩
    | arm call =>
      obtain ⟨reply, m', run, flag, going'⟩ := going.arm (ok call rfl)
      rw [← next] at going'
      refine ⟨some reply, (p, m'), by rw [Main.step, run], ?_, flag.trans ready, n, going'⟩
      rw [next]
      cases call with
      | init buf => rfl
      | channel call => rfl
  obtain ⟨replies, ⟨p, m'⟩, run, same, -, n, going⟩ := Simulation.run_keeps each
    (fun turn mem call same => plain call (same ▸ mem)) begun
  cases same
  exact ⟨replies, m', n, run, going⟩

end delivery

/-- The streaming program and any use of the channel files around it, after an init: the flag
    opens the stream, no byte is lost or comes twice, and each one is the byte behind `i`. -/
theorem stream_program_delivers (L : Layout) (m : Ram) (left : LeftByInit L m)
    (behind : Nat → UInt8) (turns : List Turn) (plain : ∀ call, .arm call ∈ turns → Plain call) :
    ∃ replies p m', Simulation.run (byteStreamWrite behind).step turns (.waitInit, m) =
        .ok (replies, (p, m')) ∧
      Delivered (behind 1) turns (texts turns replies) p m' := by
  obtain ⟨replies, m', n, run, going⟩ := stream_follows left behind turns plain
  exact ⟨replies, _, m', run, going.delivered⟩

/-- A flag of zero, one that opens the stream, two bytes for a channel of two and a round that
    finds no place; the third read finds nothing. -/
def streamTurns : List Turn :=
  [.pru, .pru, .arm (.channel (.write 1 [0])), .pru, .arm (.channel (.write 1 [9])), .pru, .pru,
    .pru, .pru, .arm (.channel (.read 0)), .arm (.channel (.read 0)), .arm (.channel (.read 0))]

theorem stream_program_delivers_two : ∃ replies p m',
    Simulation.run (byteStreamWrite fun j => UInt8.ofNat (6 + j)).step streamTurns
      (.waitInit, pairsRam) = .ok (replies, (p, m')) ∧ p = .loop 2 ∧
      texts streamTurns replies = [[7, 10], [7, 10], [0, 10]] ∧
      Delivered 7 streamTurns (texts streamTurns replies) p m' := by
  have plain : ∀ call, .arm call ∈ streamTurns → Plain call := by
    intro call mem
    simp only [streamTurns, List.mem_cons, Turn.arm.injEq, reduceCtorEq, List.not_mem_nil, false_or,
      or_false] at mem
    rcases mem with rfl | rfl | rfl | rfl | rfl
    · exact nofun
    · exact nofun
    · exact nofun
    · exact nofun
    · exact nofun
  obtain ⟨replies, p, m', run, delivered⟩ :=
    stream_program_delivers pairs pairsRam pairsRam_left (fun j => UInt8.ofNat (6 + j)) streamTurns
      plain
  have ends : (Simulation.run (byteStreamWrite fun j => UInt8.ofNat (6 + j)).step streamTurns
      (.waitInit, pairsRam)).toOption.map (fun r => (r.2.1, texts streamTurns r.1)) =
        some (.loop 2, [[7, 10], [7, 10], [0, 10]]) := by
    decide +kernel
  rw [run] at ends
  obtain ⟨point, answers⟩ := Prod.mk.inj (Option.some.inj ends)
  exact ⟨replies, p, m', run, point, answers, delivered⟩

end PruBridge.Program
