import PruBridge.MaximalRuns
import PruBridge.Operations
import PruBridge.Sysfs
import Mathlib.Data.Nat.Digits.Defs

/-!
What a write to the `init` file makes of its text, and what it keeps of the control block
that was there before. The numbers of a text are its maximal runs of decimal digits.
-/
namespace PruBridge.Driver
open AtomicProgram MaximalRuns

/-- The maximal runs of digits of a zero-terminated text. -/
def digitRuns (buf : Text) : List Text := runs isDigit (buf.takeWhile (· ≠ 0))

def decimalValue (run : Text) : Nat := Nat.ofDigits 10 (run.reverse.map digit)

theorem decimal_eq (v : Nat) (run : Text) :
    decimal v run = decimalValue run + 10 ^ run.length * v := by
  induction run generalizing v with
  | nil => simp [decimal, decimalValue]
  | cons ch rest ih =>
    have step : decimal v (ch :: rest) = decimal (10 * v + digit ch) rest := rfl
    rw [step, ih, decimalValue, decimalValue, List.reverse_cons, List.map_append,
      Nat.ofDigits_append, List.length_map, List.length_reverse, List.map_singleton,
      Nat.ofDigits_singleton, List.length_cons, Nat.pow_succ]
    ring

theorem digit_nonzero (ch : UInt8) (digits : isDigit ch = true) : decide (ch ≠ 0) = true := by
  by_contra zero
  have same : ch = 0 := by simpa using zero
  subst same
  cases digits

theorem numbers_eq (buf : Text) : numbers buf = (digitRuns buf).map decimalValue := by
  induction buf, 0 using scanSizes.induct with
  | case1 i => simp [numbers, numbersFrom, digitRuns]
  | case2 rest i => simp [numbers, numbersFrom, digitRuns]
  | case3 ch rest i nonzero digits ih =>
    have here : (ch :: rest).takeWhile (· ≠ 0) = ch :: rest.takeWhile (· ≠ 0) :=
      List.takeWhile_cons_of_pos (by simpa using nonzero)
    have first := takeWhile_takeWhile_of_imp digit_nonzero (ch :: rest)
    have others := dropWhile_takeWhile_of_imp digit_nonzero (ch :: rest)
    have value := decimal_eq 0 ((ch :: rest).takeWhile isDigit)
    simp only [simpleStrtoul] at ih
    rw [numbers_digit digits, ih, digitRuns, digitRuns, ← others, value, Nat.mul_zero, Nat.add_zero]
    rw [here] at first ⊢
    rw [runs_cons_of_pos digits, first, List.map_cons]
  | case4 ch rest i nonzero digits ih =>
    have here : (ch :: rest).takeWhile (· ≠ 0) = ch :: rest.takeWhile (· ≠ 0) :=
      List.takeWhile_cons_of_pos (by simpa using nonzero)
    have outside : isDigit ch = false := by simpa using digits
    rw [digitRuns, here, runs_cons_of_neg outside, ← digitRuns, ← ih, numbers, numbersFrom,
      if_neg nonzero, if_neg digits]
    rfl

theorem numbers_length (buf : Text) : (numbers buf).length = (digitRuns buf).length := by
  rw [numbers_eq, List.length_map]

section sizes
variable {buf : Text} {old : Channel → UInt32} {i : Channel}

theorem sizesAfter_kept (past : (digitRuns buf).length ≤ i) : sizesAfter buf old i = old i := by
  have none : (numbers buf)[i.val]? = none := by
    rw [List.getElem?_eq_none_iff, numbers_length]
    exact past
  simp [sizesAfter, sizesFrom, none]

theorem sizesAfter_given (less : i < (digitRuns buf).length) :
    sizesAfter buf old i = UInt32.ofNat (decimalValue (digitRuns buf)[i.val]) := by
  have some : (numbers buf)[i.val]? = some (decimalValue (digitRuns buf)[i.val]) := by
    simp [numbers_eq, less]
  simp [sizesAfter, sizesFrom, some]

end sizes

/-- The control block `m'` that a text leaves over `m`: sizes from its numbers as far as they go,
    and ten empty rings laid out by the sizes that result. -/
structure Meaning (buf : Text) (m m' : Ram) : Prop where
  given : ∀ (i : Channel) (less : i < (digitRuns buf).length),
    (m'.channelSize i).toNat = decimalValue (digitRuns buf)[i.val] % 2 ^ 32
  kept : ∀ i : Channel, (digitRuns buf).length ≤ i → m'.channelSize i = m.channelSize i
  start : ∀ i, (m'.bufferStart i).toNat =
    (∑ j ∈ Finset.Iio i, (m'.channelSize j).toNat) % 2 ^ 32
  empty : ∀ i, m'.indexData i = 0 ∧ m'.head i = 0 ∧ m'.tail i = 0
  initCheck : m'.initCheck = 1
  data : m'.data = m.data

/-- A text with at most ten numbers, over any control block: the init ends and leaves what the
    text means. -/
theorem init_text_meaning (buf : Text) (few : (digitRuns buf).length ≤ 10) (m : Ram) :
    ∃ m', (initChannels buf).run m = .ok (strlen buf + 1, m') ∧ Meaning buf m m' := by
  have run := initChannels_run buf m (by rw [numbers_length]; exact few)
  refine ⟨_, run, ?_⟩
  constructor
  · intro i less
    simp only [laidOut, sizesAfter_given less, UInt32.toNat_ofNat']
  · intro i past
    exact sizesAfter_kept past
  · intro i
    exact UInt32.toNat_ofNat'
  · exact fun _ => ⟨rfl, rfl, rfl⟩
  · rfl
  · rfl

/-- `+7,007 -4294967297x` -/
def signedText : Text :=
  [43, 55, 44, 48, 48, 55, 32, 45, 52, 50, 57, 52, 57, 54, 55, 50, 57, 55, 120]

/-- Three numbers, the last one too long for a word. -/
theorem init_text_meaning_signed : ∃ m',
    (initChannels signedText).run zeroRam = .ok (strlen signedText + 1, m') ∧
      Meaning signedText zeroRam m' :=
  init_text_meaning signedText (by decide) zeroRam

structure SameBlock (m m' : Ram) : Prop where
  channelSize : m.channelSize = m'.channelSize
  bufferStart : m.bufferStart = m'.bufferStart
  head : m.head = m'.head
  tail : m.tail = m'.tail
  indexData : m.indexData = m'.indexData
  initCheck : m.initCheck = m'.initCheck

theorem sameBlock_laidOut_iff (m m' : Ram) (size size' : Channel → UInt32) :
    SameBlock (laidOut m size) (laidOut m' size') ↔ size = size' := by
  constructor
  · intro same
    exact same.channelSize
  · intro same
    subst same
    exact ⟨rfl, rfl, rfl, rfl, rfl, rfl⟩

def LeavesSame (buf : Text) (m₁ m₂ : Ram) : Prop :=
  ∃ r₁ r₂ m₁' m₂', (initChannels buf).run m₁ = .ok (r₁, m₁') ∧
    (initChannels buf).run m₂ = .ok (r₂, m₂') ∧ SameBlock m₁' m₂'

/-- A text written behind an earlier one leaves the same control block as without it. -/
def Overwrites (earlier buf : Text) (m : Ram) : Prop :=
  ∃ r m₁, (initChannels earlier).run m = .ok (r, m₁) ∧ LeavesSame buf m₁ m

def AfterAccesses (m : Ram) : Prop :=
  ∃ m₀ calls replies, AfterProbe m₀ ∧ (∀ call ∈ calls, call.Short) ∧
    (session calls).run m₀ = .ok (replies, m)

theorem laidOut_channelSize (m : Ram) (size : Channel → UInt32) :
    (laidOut m size).channelSize = size := rfl

section prior
variable {buf : Text} (few : (digitRuns buf).length ≤ 10)
include few

theorem leavesSame_iff (m₁ m₂ : Ram) : LeavesSame buf m₁ m₂ ↔
    ∀ i : Channel, (digitRuns buf).length ≤ i → m₁.channelSize i = m₂.channelSize i := by
  have short : (numbers buf).length ≤ 10 := by rwa [numbers_length]
  have same : LeavesSame buf m₁ m₂ ↔
      sizesAfter buf m₁.channelSize = sizesAfter buf m₂.channelSize := by
    constructor
    · intro leaves
      rcases leaves with ⟨r₁, r₂, m₁', m₂', run₁, run₂, same⟩
      rw [initChannels_run buf _ short] at run₁ run₂
      cases run₁
      cases run₂
      exact (sameBlock_laidOut_iff _ _ _ _).mp same
    · intro sizes
      exact ⟨_, _, _, _, initChannels_run buf m₁ short, initChannels_run buf m₂ short,
        (sameBlock_laidOut_iff _ _ _ _).mpr sizes⟩
  rw [same]
  constructor
  · intro sizes i past
    have here := congrFun sizes i
    rwa [sizesAfter_kept past, sizesAfter_kept past] at here
  · intro agree
    funext i
    by_cases less : i < (digitRuns buf).length
    · rw [sizesAfter_given less, sizesAfter_given less]
    · rw [sizesAfter_kept (by omega), sizesAfter_kept (by omega)]
      exact agree i (by omega)

theorem overwrites_iff {earlier : Text} (few' : (digitRuns earlier).length ≤ 10) (m : Ram) :
    Overwrites earlier buf m ↔ ∀ (i : Channel) (less : i < (digitRuns earlier).length),
      (digitRuns buf).length ≤ i →
        UInt32.ofNat (decimalValue (digitRuns earlier)[i.val]) = m.channelSize i := by
  have run := initChannels_run earlier m (by rwa [numbers_length])
  have same : Overwrites earlier buf m ↔
      LeavesSame buf (laidOut m (sizesAfter earlier m.channelSize)) m := by
    constructor
    · intro overwrites
      rcases overwrites with ⟨r, m₁, again, leaves⟩
      rw [run] at again
      cases again
      exact leaves
    · intro leaves
      exact ⟨_, _, run, leaves⟩
  rw [same, leavesSame_iff few]
  constructor
  · intro agree i less past
    have here := agree i past
    rwa [laidOut_channelSize, sizesAfter_given less] at here
  · intro agree i past
    by_cases less : i < (digitRuns earlier).length
    · have here := agree i less past
      rwa [laidOut_channelSize, sizesAfter_given less]
    · rw [laidOut_channelSize, sizesAfter_kept (by omega)]

end prior

theorem AfterProbe.accesses {m : Ram} (probed : AfterProbe m) : AfterAccesses m :=
  ⟨m, [], [], probed, by simp, rfl⟩

theorem AfterProbe.init {m : Ram} (probed : AfterProbe m) {buf : Text}
    (few : (numbers buf).length ≤ 10) :
    AfterAccesses (laidOut m (sizesAfter buf m.channelSize)) := by
  refine ⟨m, [.init buf], [.count (strlen buf + 1)], probed, by simpa [Call.Short] using few, ?_⟩
  rw [session, Prog.run_bind_ok (init_run m buf few)]
  rfl

/-- What an init leaves depends on the block before it in the sizes behind the last number of
    the text, and in nothing else; so it does not depend on it at all exactly for ten numbers. -/
theorem init_forgets_iff (buf : Text) (few : (digitRuns buf).length ≤ 10) :
    (∀ m₁ m₂, LeavesSame buf m₁ m₂ ↔
      ∀ i : Channel, (digitRuns buf).length ≤ i → m₁.channelSize i = m₂.channelSize i) ∧
    (∀ earlier m, (digitRuns earlier).length ≤ 10 → (Overwrites earlier buf m ↔
      ∀ (i : Channel) (less : i < (digitRuns earlier).length), (digitRuns buf).length ≤ i →
        UInt32.ofNat (decimalValue (digitRuns earlier)[i.val]) = m.channelSize i)) ∧
    ((∀ m₁ m₂, AfterAccesses m₁ → AfterAccesses m₂ → LeavesSame buf m₁ m₂) ↔
      (digitRuns buf).length = 10) := by
  have pair := leavesSame_iff few
  refine ⟨pair, fun earlier m few' => overwrites_iff few few' m, ?_⟩
  constructor
  · intro all
    obtain ⟨m, probed⟩ := exists_afterProbe
    have pairs : (numbers pairsText).length ≤ 10 := by decide
    have same := all _ _ (probed.init pairs) probed.accesses
    by_contra short
    -- channel 10 has the size 2 in the one block and 0 in the other
    have last := (pair _ _).mp same 9 (by change _ ≤ 9; omega)
    rw [laidOut_channelSize, probed.cleared.channelSize] at last
    exact absurd last (by decide)
  · intro ten m₁ m₂ _ _
    apply (pair m₁ m₂).mpr
    intro i past
    omega

theorem init_forgets_five :
    (∀ m₁ m₂, LeavesSame [53] m₁ m₂ ↔
      ∀ i : Channel, (digitRuns [53]).length ≤ i → m₁.channelSize i = m₂.channelSize i) ∧
    (∀ earlier m, (digitRuns earlier).length ≤ 10 → (Overwrites earlier [53] m ↔
      ∀ (i : Channel) (less : i < (digitRuns earlier).length), (digitRuns [53]).length ≤ i →
        UInt32.ofNat (decimalValue (digitRuns earlier)[i.val]) = m.channelSize i)) ∧
    ((∀ m₁ m₂, AfterAccesses m₁ → AfterAccesses m₂ → LeavesSame [53] m₁ m₂) ↔
      (digitRuns [53]).length = 10) :=
  init_forgets_iff [53] (by decide)

/-- `2 2 2 2 2 2 2 2 2 2 ` and then `5` leaves ten sizes, and `5` alone leaves one. -/
theorem init_keeps_sizes : ∃ m, AfterProbe m ∧
    AfterAccesses (laidOut m (sizesAfter pairsText m.channelSize)) ∧ AfterAccesses m ∧
    ¬ LeavesSame [53] (laidOut m (sizesAfter pairsText m.channelSize)) m ∧
    ¬ Overwrites pairsText [53] m := by
  obtain ⟨m, probed⟩ := exists_afterProbe
  have differ : ¬ LeavesSame [53] (laidOut m (sizesAfter pairsText m.channelSize)) m := by
    intro same
    have last := (leavesSame_iff (by decide) _ _).mp same 9 (by decide)
    rw [laidOut_channelSize, probed.cleared.channelSize] at last
    exact absurd last (by decide)
  refine ⟨m, probed, probed.init (by decide), probed.accesses, differ, ?_⟩
  intro overwrites
  have last := (overwrites_iff (by decide) (by decide) m).mp overwrites 9 (by decide) (by decide)
  rw [probed.cleared.channelSize] at last
  exact absurd last (by decide)

end PruBridge.Driver
