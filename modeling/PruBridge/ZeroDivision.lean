import PruBridge.Bounds
import PruBridge.Library

/-!
The modulo by `channel_size`. A read never reaches it on a channel of size zero, because
the counter of such a channel is zero; a write always does.
-/
namespace PruBridge.Driver
open AtomicProgram

/-- Every write goes to a channel to which the last init text gave a size; before the
    first init there is none. -/
def WritesSized : List Call → (size : Channel → UInt32) → Prop
  | [], _ => True
  | .init buf :: rest, size => WritesSized rest (sizesAfter buf size)
  | .channel (.write n _) :: rest, size => size n ≠ 0 ∧ WritesSized rest size
  | .channel (.read _) :: rest, size => WritesSized rest size

def Sized (m : Ram) : Prop := ∀ c, m.channelSize c = 0 → m.indexData c = 0

theorem session_run_ok {call : Call} {rest : List Call} {m m' : Ram} {reply : Reply}
    (run : call.body.run m = .ok (reply, m')) (e : Fault) :
    (session (call :: rest)).run m = .error e ↔ (session rest).run m' = .error e := by
  rw [session, Prog.run_bind_ok run, Prog.run_bind]
  cases later : (session rest).run m' with
  | error e' => rfl
  | ok result =>
    constructor
    · intro bad
      cases bad
    · intro bad
      cases bad

theorem session_run_error (rest : List Call) {call : Call} {m : Ram} {e : Fault}
    (run : call.body.run m = .error e) : (session (call :: rest)).run m = .error e := by
  rw [session, Prog.run_bind, run]

theorem Sized.write {m : Ram} (sized : Sized m) {c : Channel} (pos : m.channelSize c ≠ 0)
    (b : UInt8) : Sized (written m c b) := by
  intro d zero
  have other : d ≠ c := by
    rintro rfl
    exact pos zero
  have before := sized d zero
  unfold written
  simp only
  split
  · rwa [Function.update_of_ne other]
  · exact before

theorem Sized.read {m : Ram} (sized : Sized m) {c : Channel} (some : m.indexData c ≠ 0) :
    Sized (consumed m c) := by
  intro d zero
  have other : d ≠ c := by
    rintro rfl
    exact some (sized d zero)
  exact (Function.update_of_ne other _ _).trans (sized d zero)

theorem session_modulo_iff {m : Ram} (sized : Sized m) {calls : List Call}
    (short : ∀ call ∈ calls, call.Short) :
    (session calls).run m ≠ .error .moduloByZero ↔ WritesSized calls m.channelSize := by
  induction calls generalizing m with
  | nil => exact ⟨fun _ => trivial, fun _ => nofun⟩
  | cons call rest ih =>
    have later : ∀ call ∈ rest, call.Short := fun call mem => short call (by simp [mem])
    cases call with
    | init buf =>
      have run := init_run m buf (short (.init buf) (by simp))
      rw [ne_eq, session_run_ok run]
      exact ih (fun _ _ => rfl) later
    | channel call =>
      cases call with
      | write n buf =>
        by_cases zero : m.channelSize n = 0
        · have fault := session_run_error rest (write_run_zero m n buf zero)
          exact ⟨fun fine => absurd fault fine, fun condition => absurd zero condition.1⟩
        · rw [ne_eq, session_run_ok (write_run m n buf zero), WritesSized, and_iff_right zero]
          exact ih (sized.write zero _) later
      | read n =>
        by_cases none : m.indexData (served n) = 0
        · rw [ne_eq, session_run_ok (read_run_empty m n none)]
          exact ih sized later
        · have pos : m.channelSize (served n) ≠ 0 := fun zero => none (sized _ zero)
          rw [ne_eq, session_run_ok (read_run m n pos none)]
          exact ih (sized.read none) later

theorem library_short {calls : List Call} (library : ∀ buf, .init buf ∈ calls →
    ∃ channelSizes, Library.pruBridgeInit channelSizes = some buf) :
    ∀ call ∈ calls, call.Short := by
  intro call mem
  cases call with
  | init buf =>
    obtain ⟨channelSizes, accepted⟩ := library buf mem
    have count := congrArg List.length (Library.numbers_pruBridgeInit accepted)
    rw [List.length_map, List.length_finRange] at count
    exact Nat.le_of_eq count
  | channel call => trivial

/-- With the texts the library writes, a session stays in `ring->data` and never divides by zero
    exactly when its writes fit and go to channels that have a size. -/
theorem library_session_modulo_iff (m : Ram) (probed : AfterProbe m) (calls : List Call)
    (library : ∀ buf, .init buf ∈ calls →
      ∃ channelSizes, Library.pruBridgeInit channelSizes = some buf) :
    (InBounds (session calls) m ∧ (session calls).run m ≠ .error .moduloByZero) ↔
      WritesFit calls (fun _ => 0) (fun _ => 0) ∧ WritesSized calls (fun _ => 0) := by
  have cleared := probed.cleared
  have short := library_short library
  have sized : Sized m := by
    intro c _
    rw [cleared.indexData]
  rw [session_inBounds_iff cleared.kept short, session_modulo_iff sized short,
    cleared.channelSize]

/-- The sizes of `C_Lib/Example/stream_write.c`: one channel of 1000 bytes. -/
def streamWriteSizes (i : Channel) : Int32 := if i = 0 then 1000 else 0

theorem streamWrite_accepted : ∃ text, Library.pruBridgeInit streamWriteSizes = some text ∧
    ∀ size, sizesAfter text size = fun c => if c = 0 then 1000 else 0 := by
  obtain ⟨text, accepted⟩ := Option.isSome_iff_exists.mp
    (by decide : (Library.pruBridgeInit streamWriteSizes).isSome)
  refine ⟨text, accepted, ?_⟩
  intro size
  funext c
  rw [Library.sizesAfter_pruBridgeInit accepted]
  revert c
  decide

/-- The example itself, which writes to channel 1, and reads of the others. -/
theorem library_session_stream_write : ∃ m text, AfterProbe m ∧
    Library.pruBridgeInit streamWriteSizes = some text ∧
    InBounds (session [.init text, .channel (.write 0 [65]), .channel (.read 4)]) m ∧
    (session [.init text, .channel (.write 0 [65]), .channel (.read 4)]).run m ≠
      .error .moduloByZero := by
  obtain ⟨m, probed⟩ := exists_afterProbe
  obtain ⟨text, accepted, sizes⟩ := streamWrite_accepted
  refine ⟨m, text, probed, accepted, (library_session_modulo_iff m probed _ ?_).mpr ?_⟩
  · intro buf mem
    simp only [List.mem_cons, Call.init.injEq, reduceCtorEq, List.not_mem_nil, or_false] at mem
    exact ⟨streamWriteSizes, mem ▸ accepted⟩
  · simp only [WritesFit, WritesSized, sizes]
    decide

/-- After the same init, one write to `ch2_write` divides by zero. -/
theorem library_session_divides_by_zero : ∃ m text, AfterProbe m ∧
    Library.pruBridgeInit streamWriteSizes = some text ∧
    InBounds (session [.init text, .channel (.write 1 [65])]) m ∧
    (session [.init text, .channel (.write 1 [65])]).run m = .error .moduloByZero := by
  obtain ⟨m, probed⟩ := exists_afterProbe
  obtain ⟨text, accepted, sizes⟩ := streamWrite_accepted
  have few : (numbers text).length ≤ 10 := by
    rw [Library.numbers_pruBridgeInit accepted]
    decide
  have short : ∀ call ∈ [Call.init text, .channel (.write 1 [65])], call.Short := by
    intro call mem
    rcases List.mem_pair.mp mem with rfl | rfl
    · exact few
    · trivial
  refine ⟨m, text, probed, accepted, ?_, ?_⟩
  · rw [session_inBounds_iff probed.cleared.kept short]
    simp only [WritesFit, sizes]
    decide
  · rw [session_run_ok (init_run m text few)]
    apply session_run_error _
    apply write_run_zero
    exact (congrFun (sizes _) 1).trans (by decide)

end PruBridge.Driver
