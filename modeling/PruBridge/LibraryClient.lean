import PruBridge.Lifecycle
import PruBridge.StreamProgram
import PruBridge.TextBuffers

/-!
A process that uses the C library: `pru_channel_open`, `pru_channel_close` and the table
`file_name`, with the calls of `pru_bridge_init`, `pru_write` and `pru_read` on the files that
the table holds. What goes wrong in the process ends its run: a text that is longer than its
array, an index outside the table, a stream that is not open, a file that has no handler for
the transfer (what stdio keeps of a byte that the kernel refused is not modelled).
-/
namespace PruBridge.Library.Client
open AtomicProgram Driver Lifecycle

section except
variable {ε α β : Type}

theorem ok_bind (a : α) (f : α → Except ε β) : (Except.ok a >>= f) = f a := rfl

theorem bind_fails {x : Except ε α} {f : α → Except ε β}
    (later : ∀ a, x = .ok a → ∃ e, f a = .error e) : ∃ e, (x >>= f) = .error e := by
  cases x with
  | error e => exact ⟨e, rfl⟩
  | ok a => exact later a rfl

theorem fails_bind {x : Except ε α} (wrong : ∃ e, x = .error e) (f : α → Except ε β) :
    ∃ e, (x >>= f) = .error e := by
  obtain ⟨e, rfl⟩ := wrong
  exact ⟨e, rfl⟩

end except

inductive Trouble where
  | overrun
  | table
  | stream
  | transfer
  deriving DecidableEq

inductive Stream where
  | null
  | on (a : Attr)
  | closed
  deriving DecidableEq

/-- `FILE *file_name[NUM_CHANNELS];` -/
abbrev Table := Channel → Stream

/-- The names that `DEVICE_ATTR` gives the files. -/
def attrName : Attr → String
  | .init => "init"
  | .write 0 => "ch1_write"
  | .read 0 => "ch1_read"
  | .write 1 => "ch2_write"
  | .read 1 => "ch2_read"
  | .write 2 => "ch3_write"
  | .read 2 => "ch3_read"
  | .write 3 => "ch4_write"
  | .read 3 => "ch4_read"
  | .write 4 => "ch5_write"
  | .read 4 => "ch5_read"
  | .write 5 => "ch6_write"
  | .read 5 => "ch6_read"
  | .write 6 => "ch7_write"
  | .read 6 => "ch7_read"
  | .write 7 => "ch8_write"
  | .read 7 => "ch8_read"
  | .write 8 => "ch9_write"
  | .read 8 => "ch9_read"
  | .write 9 => "ch10_write"
  | .read 9 => "ch10_read"

def text (s : String) : Text := ascii s.toList

def directory : Text := text "/sys/devices/virtual/misc/pru_bridge/"

def stored (size : Nat) (string : Text) : Except Trouble Text :=
  if string.length + 1 ≤ size then .ok string else .error .overrun

/-- The index `channel_no-1`, where it is inside the table. -/
def slot (channelNo : Int32) : Option Channel :=
  if inside : 0 ≤ channelNo - 1 ∧ (channelNo - 1).toNatClampNeg < 10 then
    some ⟨(channelNo - 1).toNatClampNeg, inside.2⟩
  else none

def entry (channelNo : Int32) : Except Trouble Channel :=
  match slot channelNo with
  | some c => .ok c
  | none => .error .table

section calls
variable (present : Attr → Bool)

/-- `present` says which of the driver's files are there and may be opened. -/
def fopen (path : Text) : Stream :=
  match attrs.find? fun a => path = directory ++ text (attrName a) && present a with
  | some a => .on a
  | none => .null

/-- The access of the driver's file that a transfer through a stream makes. A `_read` file has
    no store handler, the others have no show handler. -/
def fwrite (buffer : Text) : Stream → Except Trouble Call
  | .on .init => .ok (.init buffer)
  | .on (.write n) => .ok (.channel (.write n buffer))
  | .on (.read _) => .error .transfer
  | _ => .error .stream

def fread : Stream → Except Trouble Call
  | .on (.read n) => .ok (.channel (.read n))
  | .on _ => .error .transfer
  | _ => .error .stream

def pruBridgeInit (channelSizes : Channel → Int32) : Except Trouble (List Call) :=
  if ∀ put ∈ bufferStores channelSizes, put.Fits then
    match Library.pruBridgeInit channelSizes with
    | none => .ok []
    | some input =>
      match fopen present (directory ++ text "init") with
      | .null => .ok []
      | fp => do
        let call ← fwrite input fp
        pure [call]
  else .error .overrun

def pruChannelOpen (channelNo type : Int32) (fileName : Table) : Except Trouble Table := do
  let chNumber ← stored 5 (sprintfD channelNo)
  let input ← stored 20 (text "ch" ++ chNumber)
  let input ← stored 20 (if type = 0 then input ++ text "_read"
    else if type = 1 then input ++ text "_write" else input)
  let fileNm ← stored 100 (directory ++ input)
  let c ← entry channelNo
  pure (Function.update fileName c (fopen present fileNm))

def pruChannelClose (channelNo : Int32) (fileName : Table) : Except Trouble Table := do
  let c ← entry channelNo
  match fileName c with
  | .on _ => pure (Function.update fileName c .closed)
  | _ => throw .stream

def writeLoop (fileName : Table) (channelNo : Int32) (pruData : Nat → UInt8) :
    (left i : Nat) → Except Trouble (List Call)
  | 0, _ => pure []
  | left + 1, i => do
    let c ← entry channelNo
    let call ← fwrite [pruData i] (fileName c)
    let later ← writeLoop fileName channelNo pruData left (i + 1)
    pure (call :: later)

def readLoop (fileName : Table) (channelNo : Int32) : (left : Nat) → Except Trouble (List Call)
  | 0 => pure []
  | left + 1 => do
    let c ← entry channelNo
    let call ← fread (fileName c)
    let later ← readLoop fileName channelNo left
    pure (call :: later)

inductive LibraryCall where
  | init (channelSizes : Channel → Int32)
  | channelOpen (channelNo type : Int32)
  | channelClose (channelNo : Int32)
  | write (channelNo : Int32) (pruData : Nat → UInt8) (length : Int32)
  | read (channelNo length : Int32)

def step : LibraryCall → Table → Except Trouble (List Call × Table)
  | .init channelSizes, fileName => do
    let made ← pruBridgeInit present channelSizes
    pure (made, fileName)
  | .channelOpen channelNo type, fileName => do
    let fileName ← pruChannelOpen present channelNo type fileName
    pure ([], fileName)
  | .channelClose channelNo, fileName => do
    let fileName ← pruChannelClose channelNo fileName
    pure ([], fileName)
  | .write channelNo pruData length, fileName => do
    let made ← writeLoop fileName channelNo pruData length.toNatClampNeg 0
    pure (made, fileName)
  | .read channelNo length, fileName => do
    let made ← readLoop fileName channelNo length.toNatClampNeg
    pure (made, fileName)

end calls

def number (c : Channel) : Int32 := Int32.ofNat (c.val + 1)

theorem slot_number (c : Channel) : slot (number c) = some c := by
  fin_cases c <;> rfl

theorem slot_eq_some {channelNo : Int32} {c : Channel} :
    slot channelNo = some c ↔ channelNo = number c := by
  constructor
  · intro found
    unfold slot at found
    split at found
    · rename_i inside
      have value : (channelNo - 1).toNatClampNeg = c := congrArg Fin.val (Option.some.inj found)
      have index := Int32.ofNat_toNatClampNeg (channelNo - 1) inside.1
      rw [value] at index
      have back : channelNo = Int32.ofNat c + 1 := by rw [index, Int32.sub_add_cancel]
      rw [back]
      fin_cases c <;> rfl
    · cases found
  · rintro rfl
    exact slot_number c

theorem isDigit_numeral (n : Nat) : ∀ b ∈ ascii (Nat.toDigits 10 n), isDigit b := by
  intro b mem
  obtain ⟨ch, here, rfl⟩ := List.mem_map.mp mem
  exact (digit_ascii (Nat.isDigit_of_mem_toDigits (by decide) (by decide) here)).1

theorem numeral_inj {m n : Nat} (same : ascii (Nat.toDigits 10 m) = ascii (Nat.toDigits 10 n)) :
    m = n := by
  have value : ∀ k, decimal 0 (ascii (Nat.toDigits 10 k)) = k := by
    intro k
    rw [decimal_ascii fun ch mem => Nat.isDigit_of_mem_toDigits (by decide) (by decide) mem,
      Nat.ofDigitChars_ten_toDigits]
  rw [← value m, same, value n]

theorem sprintfD_sign {a b : Int32} (negative : a < 0) (natural : ¬ b < 0) :
    sprintfD a ≠ sprintfD b := by
  intro same
  rw [sprintfD, sprintfD, if_pos negative, if_neg natural] at same
  have digit := isDigit_numeral b.toNatClampNeg 45 (by rw [← same]; exact List.mem_cons_self)
  exact absurd digit (by decide)

theorem sprintfD_inj {a b : Int32} (same : sprintfD a = sprintfD b) : a = b := by
  by_cases negative : a < 0
  · by_cases negative' : b < 0
    · have sizes := same
      rw [sprintfD, sprintfD, if_pos negative, if_pos negative'] at sizes
      have sizes := numeral_inj (List.cons.inj sizes).2
      rw [Int32.lt_iff_toInt_lt, Int32.toInt_zero] at negative negative'
      exact Int32.toInt_inj.mp (by omega)
    · exact absurd same (sprintfD_sign negative negative')
  · by_cases negative' : b < 0
    · exact absurd same.symm (sprintfD_sign negative' negative)
    · have sizes := same
      rw [sprintfD, sprintfD, if_neg negative, if_neg negative'] at sizes
      rw [← Int32.ofNat_toNatClampNeg a (Int32.not_lt.mp negative), numeral_inj sizes,
        Int32.ofNat_toNatClampNeg b (Int32.not_lt.mp negative')]

theorem numeral_apart (value : Int32) : ∀ b ∈ sprintfD value, decide (b ≠ 95) = true := by
  have digits : ∀ n, ∀ b ∈ ascii (Nat.toDigits 10 n), decide (b ≠ 95) = true := by
    intro n b mem
    have digit := isDigit_numeral n b mem
    rw [decide_eq_true_eq]
    rintro rfl
    exact absurd digit (by decide)
  intro b mem
  unfold sprintfD at mem
  split at mem
  · rcases List.mem_cons.mp mem with rfl | later
    · decide
    · exact digits _ b later
  · exact digits _ b mem

/-- What `pru_channel_open` puts behind the number. -/
def ending (type : Int32) : Text :=
  if type = 0 then text "_read" else if type = 1 then text "_write" else []

theorem ending_apart (type : Int32) : ∀ b ∈ (ending type).head?, b = 95 := by
  intro b first
  unfold ending at first
  split at first
  · exact (Option.some.inj first).symm
  · split at first
    · exact (Option.some.inj first).symm
    · cases first

theorem takeWhile_numeral (value : Int32) {rest : Text} (apart : ∀ b ∈ rest.head?, b = 95) :
    (sprintfD value ++ rest).takeWhile (· ≠ 95) = sprintfD value := by
  rw [List.takeWhile_append_of_pos (numeral_apart value)]
  cases rest with
  | nil => exact List.append_nil _
  | cons b rest =>
    have here : b = 95 := apart b rfl
    rw [List.takeWhile_cons_of_neg (by simp [here]), List.append_nil]

theorem name_inj {a b type type' : Int32}
    (same : sprintfD a ++ ending type = sprintfD b ++ ending type') :
    a = b ∧ ending type = ending type' := by
  have numerals := congrArg (List.takeWhile fun b => decide (b ≠ 95)) same
  rw [takeWhile_numeral a (ending_apart type), takeWhile_numeral b (ending_apart type')] at numerals
  rw [numerals] at same
  exact ⟨sprintfD_inj numerals, List.append_cancel_left same⟩

def fileOf (channelNo type : Int32) : Option Attr :=
  (slot channelNo).bind fun c =>
    if type = 0 then some (.read c) else if type = 1 then some (.write c) else none

theorem fileOf_iff (channelNo type : Int32) (a : Attr) : fileOf channelNo type = some a ↔
    ∃ c, slot channelNo = some c ∧ (type = 0 ∧ a = .read c ∨ type = 1 ∧ a = .write c) := by
  unfold fileOf
  rw [Option.bind_eq_some_iff]
  apply exists_congr
  intro c
  apply and_congr_right
  intro _
  by_cases zero : type = 0
  · simp [zero, eq_comm]
  · by_cases one : type = 1
    · simp [one, eq_comm]
    · simp [zero, one]

theorem attrName_read (c : Channel) :
    text (attrName (.read c)) = text "ch" ++ (sprintfD (number c) ++ ending 0) := by
  fin_cases c <;> decide

theorem attrName_write (c : Channel) :
    text (attrName (.write c)) = text "ch" ++ (sprintfD (number c) ++ ending 1) := by
  fin_cases c <;> decide

theorem not_init (rest : Text) : text "ch" ++ rest ≠ text "init" := by
  intro same
  have first : (some 99 : Option UInt8) = some 105 := congrArg List.head? same
  exact absurd first (by decide)

theorem ending_iff {type type' : Int32} (known : type' = 0 ∨ type' = 1) :
    ending type = ending type' ↔ type = type' := by
  constructor
  · intro same
    unfold ending at same
    rcases known with rfl | rfl
    · by_contra other
      rw [if_neg other] at same
      split at same
      · exact absurd same (by decide)
      · exact absurd same (by decide)
    · by_contra other
      rw [if_neg other] at same
      split at same
      · exact absurd same (by decide)
      · exact absurd same (by decide)
  · rintro rfl
    rfl

/-- The text that is made of a number and a type is the name of that file and of no other. -/
theorem named_iff (channelNo type : Int32) (a : Attr) :
    text "ch" ++ (sprintfD channelNo ++ ending type) = text (attrName a) ↔
      fileOf channelNo type = some a := by
  have parts : ∀ c type', text "ch" ++ (sprintfD channelNo ++ ending type) =
      text "ch" ++ (sprintfD (number c) ++ ending type') ↔
      slot channelNo = some c ∧ ending type = ending type' := by
    intro c type'
    constructor
    · intro same
      obtain ⟨numbers, endings⟩ := name_inj (List.append_cancel_left same)
      exact ⟨slot_eq_some.mpr numbers, endings⟩
    · rintro ⟨found, endings⟩
      rw [slot_eq_some.mp found, endings]
  rw [fileOf_iff]
  cases a with
  | init =>
    constructor
    · intro same
      exact absurd same (not_init _)
    · rintro ⟨c, -, ⟨-, kind⟩ | ⟨-, kind⟩⟩
      · cases kind
      · cases kind
  | read c =>
    rw [attrName_read, parts, ending_iff (Or.inl rfl)]
    constructor
    · rintro ⟨found, kind⟩
      exact ⟨c, found, Or.inl ⟨kind, rfl⟩⟩
    · rintro ⟨d, found, ⟨kind, same⟩ | ⟨-, other⟩⟩
      · cases same
        exact ⟨found, kind⟩
      · cases other
  | write c =>
    rw [attrName_write, parts, ending_iff (Or.inr rfl)]
    constructor
    · rintro ⟨found, kind⟩
      exact ⟨c, found, Or.inr ⟨kind, rfl⟩⟩
    · rintro ⟨d, found, ⟨-, other⟩ | ⟨kind, same⟩⟩
      · cases other
      · cases same
        exact ⟨found, kind⟩

theorem mem_attrs (a : Attr) : a ∈ attrs := by
  cases a with
  | init => exact List.mem_cons_self
  | write n => exact List.mem_cons_of_mem _ (List.mem_flatMap.mpr ⟨n, by simp, by simp⟩)
  | read n => exact List.mem_cons_of_mem _ (List.mem_flatMap.mpr ⟨n, by simp, by simp⟩)

def Stream.file : Stream → Option Attr
  | .on a => some a
  | _ => none

section files
variable (present : Attr → Bool)

theorem fopen_file {path : Text} {file : Option Attr}
    (named : ∀ a, path = directory ++ text (attrName a) ↔ file = some a) :
    (fopen present path).file = file.filter present := by
  unfold fopen
  cases found : attrs.find? fun a => path = directory ++ text (attrName a) && present a with
  | some a =>
    have fits := List.find?_some found
    rw [Bool.and_eq_true, decide_eq_true_eq, named] at fits
    rw [fits.1, Option.filter_some, if_pos fits.2]
    rfl
  | none =>
    cases file with
    | none => rfl
    | some a =>
      have misfit := List.find?_eq_none.mp found a (mem_attrs a)
      rw [Bool.and_eq_true, decide_eq_true_eq, named] at misfit
      have absent : ¬ present a = true := fun there => misfit ⟨rfl, there⟩
      rw [Option.filter_some, if_neg absent]
      rfl

theorem open_file (channelNo type : Int32) :
    (fopen present (directory ++ (text "ch" ++ (sprintfD channelNo ++ ending type)))).file =
      (fileOf channelNo type).filter present := by
  apply fopen_file
  intro a
  rw [List.append_cancel_left_eq]
  exact named_iff channelNo type a

theorem init_file : (fopen present (directory ++ text "init")).file =
    (some Attr.init).filter present := by
  apply fopen_file
  intro a
  rw [List.append_cancel_left_eq, Option.some.injEq]
  cases a with
  | init => exact ⟨fun _ => rfl, fun _ => rfl⟩
  | read c => simp [attrName_read, (not_init _).symm]
  | write c => simp [attrName_write, (not_init _).symm]

def LibraryCall.sets : LibraryCall → Option Int32
  | .channelOpen channelNo _ => some channelNo
  | .channelClose channelNo => some channelNo
  | _ => none

def LibraryCall.leaves : LibraryCall → Option Attr
  | .channelOpen channelNo type => (fileOf channelNo type).filter present
  | _ => none

/-- What the last open or close of this number leaves open. -/
def held (before : List LibraryCall) (channelNo : Int32) : Option Attr :=
  (before.filter fun call => call.sets = some channelNo).getLast?.bind (LibraryCall.leaves present)

theorem held_next (before : List LibraryCall) (call : LibraryCall) (channelNo : Int32) :
    held present (before ++ [call]) channelNo =
      if call.sets = some channelNo then call.leaves present
      else held present before channelNo := by
  unfold held
  rw [List.filter_append]
  by_cases here : call.sets = some channelNo
  · rw [if_pos here, List.filter_cons_of_pos (by simpa using here), List.filter_nil,
      List.getLast?_concat]
    rfl
  · rw [if_neg here, List.filter_cons_of_neg (by simpa using here), List.filter_nil,
      List.append_nil]

/-- The sizes that an accepted array has given the channels, if the init file opened. -/
def LibraryCall.gives : LibraryCall → Option (Channel → Int32)
  | .init channelSizes =>
    if present .init ∧ (Library.pruBridgeInit channelSizes).isSome then some channelSizes else none
  | _ => none

def given (before : List LibraryCall) (c : Channel) : Int32 :=
  ((before.filterMap (LibraryCall.gives present)).getLast?.map fun sizes => sizes c).getD 0

/-- What a call may do after these calls: the numbers name channels, a transfer and a close find
    the file that they need open, and a write has a size to wrap at. -/
def Fine (before : List LibraryCall) : LibraryCall → Prop
  | .init channelSizes => ∀ put ∈ bufferStores channelSizes, put.Fits
  | .channelOpen channelNo _ => (slot channelNo).isSome
  | .channelClose channelNo => (held present before channelNo).isSome
  | .write channelNo _ length => 0 < length →
    ∃ c, held present before channelNo = some (.write c) ∧ given present before c ≠ 0
  | .read channelNo length => 0 < length → ∃ c, held present before channelNo = some (.read c)

instance (before : List LibraryCall) (call : LibraryCall) :
    Decidable (Fine present before call) := by
  cases call <;> simp only [Fine] <;> infer_instance

def asked : LibraryCall → List Call
  | .init channelSizes =>
    if present .init then (Library.pruBridgeInit channelSizes).toList.map .init else []
  | .write channelNo pruData length => (slot channelNo).toList.flatMap fun c =>
    (List.range length.toNatClampNeg).map fun i => .channel (.write c [pruData i])
  | .read channelNo length => (slot channelNo).toList.flatMap fun c =>
    List.replicate length.toNatClampNeg (.channel (.read c))
  | _ => []

/-- The part of `Fine` that the process itself needs. -/
def Ready (before : List LibraryCall) : LibraryCall → Prop
  | .write channelNo _ length => 0 < length → ∃ c, held present before channelNo = some (.write c)
  | call => Fine present before call

/-- The part that the kernel needs. -/
def Divides (before : List LibraryCall) : LibraryCall → Prop
  | .write channelNo _ length => 0 < length →
    ∀ c, slot channelNo = some c → given present before c ≠ 0
  | _ => True

def Agree (before : List LibraryCall) (fileName : Table) : Prop :=
  ∀ c, (fileName c).file = held present before (number c)

variable {present} {before : List LibraryCall} {fileName : Table}

theorem held_slot {channelNo : Int32} {a : Attr} (open_ : held present before channelNo = some a) :
    ∃ c, slot channelNo = some c ∧ (a = .read c ∨ a = .write c) := by
  unfold held at open_
  obtain ⟨call, last, leaves⟩ := Option.bind_eq_some_iff.mp open_
  have sets := List.mem_filter.mp (List.mem_of_getLast? last)
  cases call with
  | channelOpen n type =>
    have same : n = channelNo := by simpa [LibraryCall.sets] using sets.2
    have file := (Option.filter_eq_some_iff.mp leaves).1
    obtain ⟨c, found, ⟨-, kind⟩ | ⟨-, kind⟩⟩ := (fileOf_iff n type a).mp file
    · exact ⟨c, by rw [← same, found], Or.inl kind⟩
    · exact ⟨c, by rw [← same, found], Or.inr kind⟩
  | init channelSizes => cases leaves
  | channelClose n => cases leaves
  | write n pruData length => cases leaves
  | read n length => cases leaves

theorem held_write {channelNo : Int32} {c : Channel}
    (open_ : held present before channelNo = some (.write c)) : slot channelNo = some c := by
  obtain ⟨d, found, kind | kind⟩ := held_slot open_
  · cases kind
  · cases kind
    exact found

theorem held_read {channelNo : Int32} {c : Channel}
    (open_ : held present before channelNo = some (.read c)) : slot channelNo = some c := by
  obtain ⟨d, found, kind | kind⟩ := held_slot open_
  · cases kind
    exact found
  · cases kind

theorem fine_iff (call : LibraryCall) :
    Fine present before call ↔ Ready present before call ∧ Divides present before call := by
  cases call with
  | write channelNo pruData length =>
    constructor
    · intro fine
      constructor
      · intro some
        obtain ⟨c, open_, -⟩ := fine some
        exact ⟨c, open_⟩
      · intro some d found
        obtain ⟨c, open_, size⟩ := fine some
        rw [held_write open_] at found
        cases found
        exact size
    · rintro ⟨ready, divides⟩ some
      obtain ⟨c, open_⟩ := ready some
      exact ⟨c, open_, divides some c (held_write open_)⟩
  | init channelSizes => exact (and_iff_left trivial).symm
  | channelOpen channelNo type => exact (and_iff_left trivial).symm
  | channelClose channelNo => exact (and_iff_left trivial).symm
  | read channelNo length => exact (and_iff_left trivial).symm

theorem number_inj {c d : Channel} (same : number c = number d) : c = d := by
  have found := congrArg slot same
  rw [slot_number, slot_number] at found
  exact Option.some.inj found

theorem Agree.keep (agree : Agree present before fileName) {call : LibraryCall}
    (nothing : call.sets = none) : Agree present (before ++ [call]) fileName := by
  intro c
  rw [held_next, nothing, if_neg (by simp)]
  exact agree c

theorem Agree.set (agree : Agree present before fileName) {call : LibraryCall} {c : Channel}
    {s : Stream} (sets : call.sets = some (number c)) (leaves : s.file = call.leaves present) :
    Agree present (before ++ [call]) (Function.update fileName c s) := by
  intro d
  rw [held_next, sets]
  by_cases here : d = c
  · rw [here, if_pos rfl, Function.update_self, leaves]
  · have other : some (number c) ≠ some (number d) := by
      intro same
      exact here (number_inj (Option.some.inj same)).symm
    rw [if_neg other, Function.update_of_ne here]
    exact agree d

theorem Stream.eq_on {s : Stream} {a : Attr} (file : s.file = some a) : s = .on a := by
  cases s with
  | on b => rw [Option.some.inj file]
  | null => cases file
  | closed => cases file

theorem fopen_null {path : Text} (nothing : (fopen present path).file = none) :
    fopen present path = .null := by
  unfold fopen at nothing ⊢
  split at nothing
  · cases nothing
  · rfl

theorem entry_found {channelNo : Int32} {c : Channel} (found : slot channelNo = some c) :
    entry channelNo = .ok c := by
  rw [entry, found]

theorem stored_fits {size : Nat} {string : Text} (fits : string.length + 1 ≤ size) :
    stored size string = .ok string := if_pos fits

theorem init_step (channelSizes : Channel → Int32)
    (fits : ∀ put ∈ bufferStores channelSizes, put.Fits) :
    pruBridgeInit present channelSizes = .ok (asked present (.init channelSizes)) := by
  have file := init_file present
  unfold pruBridgeInit
  simp only [asked, if_pos fits]
  cases Library.pruBridgeInit channelSizes with
  | none => simp
  | some input =>
    by_cases there : present .init
    · rw [Option.filter_some, if_pos there] at file
      simp only [Stream.eq_on file, there]
      rfl
    · rw [Option.filter_some, if_neg there] at file
      simp only [fopen_null file, there]
      rfl

theorem ending_length (type : Int32) : (ending type).length ≤ 6 := by
  unfold ending
  split
  · decide
  · split
    · decide
    · decide

theorem append_ending (input : Text) (type : Int32) :
    (if type = 0 then input ++ text "_read" else if type = 1 then input ++ text "_write"
      else input) = input ++ ending type := by
  unfold ending
  split
  · rfl
  · split
    · rfl
    · exact (List.append_nil input).symm

/-- The numeral of a channel has at most two digits, so that no array overruns. -/
theorem open_step {channelNo : Int32} {c : Channel} (found : slot channelNo = some c)
    (type : Int32) (fileName : Table) : pruChannelOpen present channelNo type fileName =
      .ok (Function.update fileName c
        (fopen present (directory ++ (text "ch" ++ (sprintfD channelNo ++ ending type))))) := by
  have digits : (sprintfD channelNo).length ≤ 2 := by
    rw [slot_eq_some.mp found]
    fin_cases c <;> decide
  have letters := ending_length type
  have ch : (text "ch").length = 2 := by decide
  have path : directory.length = 37 := by decide
  unfold pruChannelOpen
  rw [stored_fits (by omega), ok_bind, stored_fits (by rw [List.length_append]; omega), ok_bind,
    append_ending, List.append_assoc,
    stored_fits (by rw [List.length_append, List.length_append]; omega), ok_bind,
    stored_fits (by rw [List.length_append, List.length_append, List.length_append]; omega),
    ok_bind, entry_found found, ok_bind]
  rfl

theorem close_step {channelNo : Int32} {c : Channel} {a : Attr} (found : slot channelNo = some c)
    (open_ : fileName c = .on a) :
    pruChannelClose channelNo fileName = .ok (Function.update fileName c .closed) := by
  unfold pruChannelClose
  rw [entry_found found, ok_bind]
  simp only [open_]
  rfl

theorem writeLoop_step {channelNo : Int32} {c : Channel} (found : slot channelNo = some c)
    (open_ : fileName c = .on (.write c)) (pruData : Nat → UInt8) (left i : Nat) :
    writeLoop fileName channelNo pruData left i =
      .ok ((List.range left).map fun j => .channel (.write c [pruData (i + j)])) := by
  induction left generalizing i with
  | zero => rfl
  | succ left ih =>
    rw [writeLoop, entry_found found, ok_bind, open_, fwrite, ok_bind, ih, ok_bind,
      List.range_succ_eq_map]
    simp [Function.comp_def, Nat.add_assoc, Nat.add_comm 1]
    rfl

theorem readLoop_step {channelNo : Int32} {c : Channel} (found : slot channelNo = some c)
    (open_ : fileName c = .on (.read c)) (left : Nat) :
    readLoop fileName channelNo left = .ok (List.replicate left (.channel (.read c))) := by
  induction left with
  | zero => rfl
  | succ left ih =>
    rw [readLoop, entry_found found, ok_bind, open_, fread, ok_bind, ih, ok_bind]
    rfl

theorem toNatClampNeg_pos {length : Int32} : 0 < length.toNatClampNeg ↔ 0 < length := by
  rw [Int32.lt_iff_toInt_lt, Int32.toInt_zero, ← Int32.toNat_toInt]
  omega

theorem Agree.held_entry (agree : Agree present before fileName) {channelNo : Int32} {a : Attr}
    {c : Channel} (open_ : held present before channelNo = some a)
    (found : slot channelNo = some c) : fileName c = .on a := by
  apply Stream.eq_on
  rw [agree c, ← slot_eq_some.mp found, open_]

theorem step_ready (agree : Agree present before fileName) {call : LibraryCall}
    (ready : Ready present before call) :
    ∃ fileName', step present call fileName = .ok (asked present call, fileName') ∧
      Agree present (before ++ [call]) fileName' := by
  cases call with
  | init channelSizes =>
    exact ⟨fileName, by rw [step, init_step channelSizes ready, ok_bind]; rfl, agree.keep rfl⟩
  | channelOpen channelNo type =>
    obtain ⟨c, found⟩ := Option.isSome_iff_exists.mp ready
    refine ⟨_, by rw [step, open_step found, ok_bind]; rfl, agree.set ?_ ?_⟩
    · rw [LibraryCall.sets, slot_eq_some.mp found]
    · exact open_file present channelNo type
  | channelClose channelNo =>
    obtain ⟨a, open_⟩ := Option.isSome_iff_exists.mp ready
    obtain ⟨c, found, -⟩ := held_slot open_
    refine ⟨_, by rw [step, close_step found (agree.held_entry open_ found), ok_bind]; rfl,
      agree.set ?_ rfl⟩
    rw [LibraryCall.sets, slot_eq_some.mp found]
  | write channelNo pruData length =>
    refine ⟨fileName, ?_, agree.keep rfl⟩
    by_cases some : 0 < length
    · obtain ⟨c, open_⟩ := ready some
      have found := held_write open_
      rw [step, writeLoop_step found (agree.held_entry open_ found), ok_bind, asked, found]
      simp
      rfl
    · rw [← toNatClampNeg_pos, Nat.pos_iff_ne_zero, not_not] at some
      rw [step, asked, some]
      cases slot channelNo <;> rfl
  | read channelNo length =>
    refine ⟨fileName, ?_, agree.keep rfl⟩
    by_cases some : 0 < length
    · obtain ⟨c, open_⟩ := ready some
      have found := held_read open_
      rw [step, readLoop_step found (agree.held_entry open_ found), ok_bind, asked, found]
      simp
      rfl
    · rw [← toNatClampNeg_pos, Nat.pos_iff_ne_zero, not_not] at some
      rw [step, asked, some]
      cases slot channelNo <;> rfl

/-- Where no entry is found there is an error, and elsewhere the entry decides. -/
theorem entry_fails {β : Type} {channelNo : Int32} {f : Channel → Except Trouble β}
    (later : ∀ c, slot channelNo = some c → ∃ e, f c = .error e) :
    ∃ e, (entry channelNo >>= f) = .error e := by
  apply bind_fails
  intro c found
  apply later c
  unfold entry at found
  split at found
  · cases found
    assumption
  · cases found

theorem fwrite_fails {s : Stream} (other : ∀ c, s.file ≠ some (.write c))
    (init : s.file ≠ some .init) (buffer : Text) : ∃ e, fwrite buffer s = .error e := by
  cases s with
  | on a =>
    cases a with
    | init => exact absurd rfl init
    | write c => exact absurd rfl (other c)
    | read c => exact ⟨_, rfl⟩
  | null => exact ⟨_, rfl⟩
  | closed => exact ⟨_, rfl⟩

theorem fread_fails {s : Stream} (other : ∀ c, s.file ≠ some (.read c)) :
    ∃ e, fread s = .error e := by
  cases s with
  | on a =>
    cases a with
    | init => exact ⟨_, rfl⟩
    | write c => exact ⟨_, rfl⟩
    | read c => exact absurd rfl (other c)
  | null => exact ⟨_, rfl⟩
  | closed => exact ⟨_, rfl⟩

theorem Agree.entry_file (agree : Agree present before fileName) {channelNo : Int32} {c : Channel}
    (found : slot channelNo = some c) : (fileName c).file = held present before channelNo := by
  rw [agree c, slot_eq_some.mp found]

theorem held_not_init (channelNo : Int32) : held present before channelNo ≠ some .init := by
  intro open_
  obtain ⟨c, -, kind | kind⟩ := held_slot open_
  · cases kind
  · cases kind

theorem open_fails {channelNo : Int32} (nowhere : ¬ (slot channelNo).isSome) (type : Int32)
    (fileName : Table) : ∃ e, pruChannelOpen present channelNo type fileName = .error e := by
  refine bind_fails fun _ _ => bind_fails fun _ _ => bind_fails fun _ _ => bind_fails fun _ _ => ?_
  apply entry_fails
  intro c found
  exact absurd (Option.isSome_iff_exists.mpr ⟨c, found⟩) nowhere

theorem close_fails (agree : Agree present before fileName) {channelNo : Int32}
    (nothing : ¬ (held present before channelNo).isSome) :
    ∃ e, pruChannelClose channelNo fileName = .error e := by
  apply entry_fails
  intro c found
  have file := agree.entry_file found
  cases entry : fileName c with
  | on a =>
    rw [entry] at file
    exact absurd (Option.isSome_iff_exists.mpr ⟨a, file.symm⟩) nothing
  | null => exact ⟨_, rfl⟩
  | closed => exact ⟨_, rfl⟩

theorem writeLoop_fails (agree : Agree present before fileName) {channelNo : Int32}
    (other : ¬ ∃ c, held present before channelNo = some (.write c)) (pruData : Nat → UInt8)
    (left i : Nat) : ∃ e, writeLoop fileName channelNo pruData (left + 1) i = .error e := by
  apply entry_fails
  intro c found
  have file := agree.entry_file found
  apply fails_bind
  apply fwrite_fails
  · intro d open_
    exact other ⟨d, by rw [← file, open_]⟩
  · rw [file]
    exact held_not_init channelNo

theorem readLoop_fails (agree : Agree present before fileName) {channelNo : Int32}
    (other : ¬ ∃ c, held present before channelNo = some (.read c)) (left : Nat) :
    ∃ e, readLoop fileName channelNo (left + 1) = .error e := by
  apply entry_fails
  intro c found
  apply fails_bind
  apply fread_fails
  intro d open_
  exact other ⟨d, by rw [← agree.entry_file found, open_]⟩

theorem rounds_left {length : Int32} (some : 0 < length) :
    ∃ left, length.toNatClampNeg = left + 1 := by
  have pos := toNatClampNeg_pos.mpr some
  exact ⟨length.toNatClampNeg - 1, by omega⟩

theorem step_unready (agree : Agree present before fileName) {call : LibraryCall}
    (unready : ¬ Ready present before call) : ∃ e, step present call fileName = .error e := by
  cases call with
  | init channelSizes => exact fails_bind ⟨_, if_neg unready⟩ _
  | channelOpen channelNo type => exact fails_bind (open_fails unready type fileName) _
  | channelClose channelNo => exact fails_bind (close_fails agree unready) _
  | write channelNo pruData length =>
    obtain ⟨some, other⟩ := Classical.not_imp.mp unready
    obtain ⟨left, rounds⟩ := rounds_left some
    rw [step, rounds]
    exact fails_bind (writeLoop_fails agree other pruData left 0) _
  | read channelNo length =>
    obtain ⟨some, other⟩ := Classical.not_imp.mp unready
    obtain ⟨left, rounds⟩ := rounds_left some
    rw [step, rounds]
    exact fails_bind (readLoop_fails agree other left) _

theorem given_next (call : LibraryCall) : given present (before ++ [call]) =
    (call.gives present).getD (given present before) := by
  funext c
  unfold given
  rw [List.filterMap_append]
  cases gives : call.gives present with
  | none => simp [gives]
  | some sizes => simp [gives]

theorem given_nonneg (c : Channel) : 0 ≤ given present before c := by
  unfold given
  cases last : (before.filterMap (LibraryCall.gives present)).getLast? with
  | none => exact Int32.le_refl _
  | some sizes =>
    obtain ⟨call, -, gives⟩ := List.mem_filterMap.mp (List.mem_of_getLast? last)
    cases call with
    | init channelSizes =>
      simp only [LibraryCall.gives] at gives
      split at gives
      · rename_i accepted
        cases gives
        rw [pruBridgeInit_eq] at accepted
        split at accepted
        · rename_i valid
          exact valid.2 c
        · exact absurd accepted.2 (by decide)
      · cases gives
    | channelOpen n type => cases gives
    | channelClose n => cases gives
    | write n pruData length => cases gives
    | read n length => cases gives

def word (size : Int32) : UInt32 := UInt32.ofNat size.toNatClampNeg

theorem toNat_word (size : Int32) : (word size).toNat = size.toNatClampNeg := by
  have small := size.toNatClampNeg_lt
  exact UInt32.toNat_ofNat_of_lt' (by change _ < 2 ^ 32; omega)

theorem word_zero_iff {size : Int32} (nonneg : 0 ≤ size) : word size = 0 ↔ size = 0 := by
  rw [← UInt32.toNat_inj, toNat_word]
  constructor
  · intro zero
    rw [← Int32.ofNat_toNatClampNeg size nonneg, zero]
    rfl
  · rintro rfl
    rfl

theorem writesSized_writes (c : Channel) (byte : Nat → UInt8) (rest : List Call)
    (size : Channel → UInt32) (js : List Nat) :
    WritesSized ((js.map fun j => .channel (.write c [byte j])) ++ rest) size ↔
      (js ≠ [] → size c ≠ 0) ∧ WritesSized rest size := by
  induction js with
  | nil => simp
  | cons j js ih =>
    rw [List.map_cons, List.cons_append, WritesSized, ih]
    constructor
    · rintro ⟨here, -, later⟩
      exact ⟨fun _ => here, later⟩
    · rintro ⟨here, later⟩
      exact ⟨here (List.cons_ne_nil _ _), fun _ => here (List.cons_ne_nil _ _), later⟩

theorem writesSized_reads (c : Channel) (rest : List Call) (size : Channel → UInt32) (left : Nat) :
    WritesSized (List.replicate left (.channel (.read c)) ++ rest) size ↔
      WritesSized rest size := by
  induction left with
  | zero => rfl
  | succ left ih => exact ih

variable (present before) in
theorem writesSized_iff (calls : List LibraryCall) :
    WritesSized (calls.map (asked present)).flatten (fun c => word (given present before c)) ↔
      Simulation.Throughout (Divides present) before calls := by
  induction calls generalizing before with
  | nil => exact Iff.rfl
  | cons call rest ih =>
    have later := ih (before ++ [call])
    rw [given_next] at later
    rw [List.map_cons, List.flatten_cons, Simulation.Throughout]
    cases call with
    | init channelSizes =>
      refine Iff.trans ?_ (later.trans (and_iff_right trivial).symm)
      rw [asked, LibraryCall.gives]
      cases accepted : Library.pruBridgeInit channelSizes with
      | none => simp
      | some text =>
        by_cases there : present .init
        · have sizes := funext (sizesAfter_pruBridgeInit accepted
            fun c => word (given present before c))
          rw [if_pos there, if_pos ⟨there, rfl⟩]
          simp only [Option.toList, List.map_cons, List.map_nil, List.singleton_append,
            WritesSized, sizes]
          rfl
        · rw [if_neg there, if_neg fun both => there both.1]
          rfl
    | channelOpen n type => exact later.trans (and_iff_right trivial).symm
    | channelClose n => exact later.trans (and_iff_right trivial).symm
    | write n pruData length =>
      rw [Divides, asked, ← later]
      cases found : slot n with
      | none => simp [LibraryCall.gives]
      | some c =>
        have nonneg : 0 ≤ given present before c := given_nonneg c
        have size := word_zero_iff nonneg
        have rounds : List.range length.toNatClampNeg ≠ [] ↔ 0 < length := by
          rw [ne_eq, List.range_eq_nil, ← toNatClampNeg_pos, Nat.pos_iff_ne_zero]
        simp only [Option.toList, List.flatMap_cons, List.flatMap_nil, List.append_nil,
          writesSized_writes, rounds, ne_eq, size, LibraryCall.gives, Option.getD_none,
          Option.some.injEq, forall_eq']
    | read n length =>
      refine Iff.trans ?_ (later.trans (and_iff_right trivial).symm)
      rw [asked]
      cases found : slot n with
      | none => rfl
      | some c =>
        simp only [Option.toList, List.flatMap_cons, List.flatMap_nil, List.append_nil,
          writesSized_reads]
        rfl

theorem asked_init {call : LibraryCall} {buf : Text} (mem : .init buf ∈ asked present call) :
    ∃ channelSizes, call = .init channelSizes ∧
      Library.pruBridgeInit channelSizes = some buf := by
  cases call with
  | init channelSizes =>
    simp only [asked] at mem
    split at mem
    · obtain ⟨text, accepted, ⟨⟩⟩ := List.mem_map.mp mem
      exact ⟨channelSizes, rfl, Option.mem_toList.mp accepted⟩
    · cases mem
  | channelOpen n type => cases mem
  | channelClose n => cases mem
  | write n pruData length =>
    obtain ⟨c, -, mem⟩ := List.mem_flatMap.mp mem
    obtain ⟨i, -, other⟩ := List.mem_map.mp mem
    cases other
  | read n length =>
    obtain ⟨c, -, mem⟩ := List.mem_flatMap.mp mem
    cases List.eq_of_mem_replicate mem

theorem asked_short {call : LibraryCall} {access : Call} (mem : access ∈ asked present call) :
    access.Short := by
  cases access with
  | channel channelCall => trivial
  | init buf =>
    obtain ⟨channelSizes, -, accepted⟩ := asked_init mem
    have count := congrArg List.length (numbers_pruBridgeInit accepted)
    rw [List.length_map, List.length_finRange] at count
    exact Nat.le_of_eq count

theorem calls_run (agree : Agree present before fileName) (calls : List LibraryCall) :
    (Simulation.Throughout (Ready present) before calls → ∃ fileName',
      Simulation.run (step present) calls fileName = .ok (calls.map (asked present), fileName') ∧
        Agree present (before ++ calls) fileName') ∧
    (¬ Simulation.Throughout (Ready present) before calls →
      ∃ e, Simulation.run (step present) calls fileName = .error e) := by
  have succeeds : ∀ before call fileName, Agree present before fileName →
      Ready present before call → ∃ fileName', step present call fileName =
        .ok (asked present call, fileName') ∧ Agree present (before ++ [call]) fileName' :=
    fun _ _ _ agree ready => step_ready agree ready
  have fails : ∀ before call fileName, Agree present before fileName →
      ¬ Ready present before call → ∃ e, step present call fileName = .error e :=
    fun _ _ _ agree unready => step_unready agree unready
  exact Simulation.run_ok_iff succeeds fails agree calls

theorem run_made (agree : Agree present before fileName) {calls : List LibraryCall}
    {made : List (List Call)} {fileName' : Table}
    (run : Simulation.run (step present) calls fileName = .ok (made, fileName')) :
    Simulation.Throughout (Ready present) before calls ∧ made = calls.map (asked present) ∧
      Agree present (before ++ calls) fileName' := by
  obtain ⟨good, bad⟩ := calls_run agree calls
  by_cases ready : Simulation.Throughout (Ready present) before calls
  · obtain ⟨fileName'', run', agree'⟩ := good ready
    rw [run] at run'
    cases run'
    exact ⟨ready, rfl, agree'⟩
  · obtain ⟨e, wrong⟩ := bad ready
    rw [run] at wrong
    cases wrong

theorem rings_of_accepted {channelSizes : Channel → Int32}
    (accepted : (Library.pruBridgeInit channelSizes).isSome)
    (total : ∑ i, (channelSizes i).toInt ≤ totalBufferSize) (c : Channel) :
    start32 (fun i => word (channelSizes i)) c + (word (channelSizes c)).toNat ≤
      totalBufferSize := by
  have natural : ∀ i, 0 ≤ channelSizes i := by
    rw [pruBridgeInit_eq] at accepted
    split at accepted
    · rename_i valid
      exact valid.2
    · cases accepted
  have value : ∀ i, (channelSizes i).toInt = (word (channelSizes i)).toNat := by
    intro i
    rw [toNat_word, MachineWords.toInt_length (natural i)]
  simp only [value] at total
  have sum : ∑ i, (word (channelSizes i)).toNat ≤ totalBufferSize := by exact_mod_cast total
  have ends := startOf_add_size_le (fun i => (word (channelSizes i)).toNat) c
  have limit : totalBufferSize < 2 ^ 32 := by decide
  have small : startOf (fun i => (word (channelSizes i)).toNat) c < 2 ^ 32 := by omega
  have start : start32 (fun i => word (channelSizes i)) c =
      startOf (fun i => (word (channelSizes i)).toNat) c := UInt32.toNat_ofNat_of_lt' small
  rw [start]
  omega

theorem ringsFit_of_inits {calls : List Call} {size : Channel → UInt32}
    (inits : ∀ buf, .init buf ∈ calls → ∀ old c,
      start32 (sizesAfter buf old) c + (sizesAfter buf old c).toNat ≤ totalBufferSize) :
    Program.RingsFit calls size := by
  induction calls generalizing size with
  | nil => trivial
  | cons call rest ih =>
    have later := fun buf mem => inits buf (List.mem_cons_of_mem _ mem)
    cases call with
    | init buf => exact ⟨fun c _ => inits buf List.mem_cons_self size c, ih later⟩
    | channel call => exact ih later

/-- The arrays that the library sends add up to the ring bytes at most. -/
def SendsRings (calls : List LibraryCall) : Prop :=
  ∀ channelSizes, .init channelSizes ∈ calls → (Library.pruBridgeInit channelSizes).isSome →
    ∑ i, (channelSizes i).toInt ≤ totalBufferSize

theorem asked_fit {calls : List LibraryCall} (rings : SendsRings calls)
    (size : Channel → UInt32) :
    Program.RingsFit (calls.map (asked present)).flatten size := by
  apply ringsFit_of_inits
  intro buf mem old c
  obtain ⟨_, list, mem⟩ := List.mem_flatten.mp mem
  obtain ⟨call, among, rfl⟩ := List.mem_map.mp list
  obtain ⟨channelSizes, rfl, accepted⟩ := asked_init mem
  have sizes := funext (sizesAfter_pruBridgeInit accepted old)
  have some := Option.isSome_iff_exists.mpr ⟨buf, accepted⟩
  rw [sizes]
  exact rings_of_accepted some (rings channelSizes among some) c

/-- Served in any order with rounds of the streaming program, the accesses stay in `ring->data`,
    and divide by zero exactly if a write goes to a channel without a size. -/
theorem accesses_run {m : Ram} (probed : AfterProbe m) (behind : Nat → UInt8)
    {calls : List LibraryCall} (rings : SendsRings calls) {turns : List Program.Turn}
    (serves : Program.armCalls turns = (calls.map (asked present)).flatten) :
    (Simulation.Throughout (Divides present) [] calls →
      ∃ r, Simulation.run (Program.byteStreamWrite behind).step turns (.waitInit, m) = .ok r) ∧
    (¬ Simulation.Throughout (Divides present) [] calls →
      Simulation.run (Program.byteStreamWrite behind).step turns (.waitInit, m) =
        .error (.arm, .moduloByZero)) ∧
    Program.KeepsInside behind turns (.waitInit, m) := by
  have settled := Program.settled_of_probe probed
  have sizes : m.channelSize = fun c => word (given present [] c) := probed.cleared.channelSize
  have short : ∀ call, .arm call ∈ turns → call.Short := by
    intro call mem
    rw [← Program.mem_armCalls, serves] at mem
    obtain ⟨_, list, mem⟩ := List.mem_flatten.mp mem
    obtain ⟨libraryCall, -, rfl⟩ := List.mem_map.mp list
    exact asked_short mem
  have fit : Program.RingsFit (Program.armCalls turns) m.channelSize := by
    rw [serves]
    exact asked_fit rings m.channelSize
  obtain ⟨runs, faults⟩ := Program.program_stops_iff settled behind .waitInit short fit
  rw [serves, sizes, writesSized_iff] at runs faults
  exact ⟨runs, faults, Program.program_stays settled behind .waitInit short fit⟩

theorem armCalls_calls (calls : List Call) :
    Program.armCalls (calls.map Program.Turn.arm) = calls := by
  induction calls with
  | nil => rfl
  | cons call rest ih => exact congrArg (call :: ·) ih

theorem fine_eq : Fine present =
    fun before call => Ready present before call ∧ Divides present before call := by
  funext before call
  exact propext (fine_iff call)

variable (present)

/-- No call goes wrong in the process, and in no order of its accesses and of rounds of the
    streaming program is there a division by zero or an access outside `ring->data`. -/
def RunsSafely (m : Ram) (behind : Nat → UInt8) (calls : List LibraryCall) : Prop :=
  ∃ made fileName, Simulation.run (step present) calls (fun _ => .null) = .ok (made, fileName) ∧
    ∀ turns, Program.armCalls turns = made.flatten →
      (∃ r, Simulation.run (Program.byteStreamWrite behind).step turns (.waitInit, m) = .ok r) ∧
        Program.KeepsInside behind turns (.waitInit, m)

/-- Any program that uses the library, with arrays that add up to the ring bytes at most where
    they are accepted: it runs safely exactly if every call is fine after those before it, and
    then it makes the accesses that its calls are for. -/
theorem library_program_safe_iff (m : Ram) (probed : AfterProbe m) (behind : Nat → UInt8)
    (calls : List LibraryCall) (rings : SendsRings calls) :
    (RunsSafely present m behind calls ↔ Simulation.Throughout (Fine present) [] calls) ∧
    ∀ made fileName,
      Simulation.run (step present) calls (fun _ => .null) = .ok (made, fileName) →
        made = calls.map (asked present) ∧
          ∀ c, (fileName c).file = held present calls (number c) := by
  have start : Agree present [] fun _ => .null := fun _ => rfl
  refine ⟨?_, fun made fileName run => (run_made start run).2⟩
  rw [fine_eq, Simulation.throughout_and]
  constructor
  · rintro ⟨made, fileName, run, safe⟩
    obtain ⟨ready, rfl, -⟩ := run_made start run
    refine ⟨ready, ?_⟩
    by_contra zero
    have serves := armCalls_calls (calls.map (asked present)).flatten
    obtain ⟨⟨r, done⟩, -⟩ := safe _ serves
    have fault := (accesses_run probed behind rings serves).2.1 zero
    rw [done] at fault
    cases fault
  · rintro ⟨ready, divides⟩
    obtain ⟨fileName, run, -⟩ := (calls_run start calls).1 ready
    refine ⟨_, fileName, run, ?_⟩
    intro turns serves
    obtain ⟨runs, -, inside⟩ := accesses_run probed behind rings serves
    exact ⟨runs divides, inside⟩

end files

def twoChannels : List LibraryCall :=
  [.init fun _ => 2, .channelOpen 2 1, .channelOpen 1 0, .write 2 (fun _ => 1) 1, .read 1 3,
    .channelClose 1, .channelClose 2, .write 99 (fun _ => 1) 0]

theorem library_program_safe_twice : ∃ m, AfterProbe m ∧
    RunsSafely (fun _ => true) m (fun _ => 7) twoChannels := by
  obtain ⟨m, probed⟩ := exists_afterProbe
  have rings : SendsRings twoChannels := by
    intro channelSizes among _
    have pairs : channelSizes = fun _ => 2 := by simpa [twoChannels] using among
    rw [pairs]
    decide
  refine ⟨m, probed, (library_program_safe_iff _ m probed (fun _ => 7) twoChannels rings).1.mpr ?_⟩
  decide +kernel

/-- The entry of a channel has place for one file: after an open for reading, the open for
    writing is lost. -/
example : ¬ Simulation.Throughout (Fine fun _ => true) []
    [.init fun _ => 2, .channelOpen 2 1, .channelOpen 2 0, .write 2 (fun _ => 1) 1] := by
  decide +kernel

end PruBridge.Library.Client
