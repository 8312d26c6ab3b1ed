import PruBridge.ByteMemory
import PruBridge.Bounds
import PruBridge.Device
import PruBridge.RaceSafety

/-!
The bytes of the shared RAM. The driver finds the words through a mapped structure at the
address of the RAM on the ARM, the firmware through pointers at its address on the PRU. Both
find every word and every ring byte in the same place, and no two share a byte, so that the
two processors run on the bytes as they run on the cells.
-/
namespace PruBridge
open AtomicProgram ByteMemory

/-- Where a program finds the words and the ring bytes: the addresses of its first word, of
    its five arrays of words, and of its array of bytes. -/
structure Pointers where
  initCheck : UInt32
  channelSize : UInt32
  indexData : UInt32
  bufferStart : UInt32
  head : UInt32
  tail : UInt32
  data : UInt32

namespace Driver

def shmdramBase : UInt32 := 0x4a310000

/-- The sizes of the members of `struct control_channel`, in their order. -/
def memberSizes : List Nat := [4, 10 * 4, 10 * 4, 10 * 4, 10 * 4, 10 * 4]

def sizeofControl : Nat := memberSizes.sum

def controlSize : Nat := sizeofControl + sizeofControl % 4

def member (k : Nat) : UInt32 := shmdramBase + UInt32.ofNat (memberSizes.take k).sum

/-- `control_channel` and `ring`, as `pru_bridge_probe` maps them. -/
def pointers : Pointers where
  initCheck := member 0
  channelSize := member 1
  indexData := member 2
  bufferStart := member 3
  head := member 4
  tail := member 5
  data := shmdramBase + UInt32.ofNat controlSize

end Driver

namespace Firmware

def sharedMem : UInt32 := 0x00010000

def pointers : Pointers where
  initCheck := sharedMem
  channelSize := sharedMem + 4
  indexData := sharedMem + 4 + 10 * 4
  bufferStart := sharedMem + 4 + 10 * 8
  head := sharedMem + 4 + 10 * 12
  tail := sharedMem + 4 + 10 * 16
  data := sharedMem + 4 + 10 * 4 * 5

end Firmware

def base : Side → UInt32
  | .arm => Driver.shmdramBase
  | .pru => Firmware.sharedMem

def pointers : Side → Pointers
  | .arm => Driver.pointers
  | .pru => Firmware.pointers

/-- The address of `p[i]`, for a pointer to words. -/
def element (p : UInt32) (i : Channel) : UInt32 := p + 4 * UInt32.ofNat i

/-- How far into the shared RAM a processor goes for an address. -/
def offset (p : Side) (a : UInt32) : Nat := (a - base p).toNat

/-- The bytes of the shared RAM, and the array of the PRU program, which is not in it. -/
structure SharedBytes where
  shared : Bytes
  pruData : Nat → UInt8

def SharedBytes.read (p : Side) (b : SharedBytes) : (c : Cell) → c.Val
  | .initCheck => word b.shared (offset p (pointers p).initCheck)
  | .channelSize i => word b.shared (offset p (element (pointers p).channelSize i))
  | .indexData i => word b.shared (offset p (element (pointers p).indexData i))
  | .bufferStart i => word b.shared (offset p (element (pointers p).bufferStart i))
  | .head i => word b.shared (offset p (element (pointers p).head i))
  | .tail i => word b.shared (offset p (element (pointers p).tail i))
  | .data k => b.shared (offset p ((pointers p).data + k))
  | .pruData i => b.pruData i

def SharedBytes.setWord (p : Side) (b : SharedBytes) (a v : UInt32) : SharedBytes :=
  { b with shared := putWord b.shared (offset p a) v }

def SharedBytes.write (p : Side) (b : SharedBytes) : (c : Cell) → c.Val → SharedBytes
  | .initCheck, v => b.setWord p (pointers p).initCheck v
  | .channelSize i, v => b.setWord p (element (pointers p).channelSize i) v
  | .indexData i, v => b.setWord p (element (pointers p).indexData i) v
  | .bufferStart i, v => b.setWord p (element (pointers p).bufferStart i) v
  | .head i, v => b.setWord p (element (pointers p).head i) v
  | .tail i, v => b.setWord p (element (pointers p).tail i) v
  | .data k, v => { b with
      shared := Function.update b.shared (offset p ((pointers p).data + k)) v }
  | .pruData i, v => { b with pruData := Function.update b.pruData i v }

def sharedRam : Device Side Cell Cell.Val SharedBytes := ⟨SharedBytes.read, SharedBytes.write⟩

/-- Every word, and the ring bytes that `pru_bridge_probe` maps. -/
def InMap : Cell → Prop
  | .data k => k.toNat < totalBufferSize
  | _ => True

section places
variable (p : Side)

theorem offset_initCheck : offset p (pointers p).initCheck = 0 := by
  cases p <;> rfl

theorem offset_channelSize (i : Channel) :
    offset p (element (pointers p).channelSize i) = 4 + 4 * i := by
  cases p <;> revert i <;> decide

theorem offset_indexData (i : Channel) :
    offset p (element (pointers p).indexData i) = 44 + 4 * i := by
  cases p <;> revert i <;> decide

theorem offset_bufferStart (i : Channel) :
    offset p (element (pointers p).bufferStart i) = 84 + 4 * i := by
  cases p <;> revert i <;> decide

theorem offset_head (i : Channel) : offset p (element (pointers p).head i) = 124 + 4 * i := by
  cases p <;> revert i <;> decide

theorem offset_tail (i : Channel) : offset p (element (pointers p).tail i) = 164 + 4 * i := by
  cases p <;> revert i <;> decide

/-- An index from `2 ^ 32 - 204` on wraps around into the control words. -/
theorem offset_data (k : UInt32) :
    offset p ((pointers p).data + k) = (204 + k.toNat) % 2 ^ 32 := by
  have both : (pointers p).data = 204 + base p := by
    cases p <;> decide
  rw [offset, both, UInt32.add_assoc, UInt32.add_comm (base p) k, ← UInt32.add_assoc,
    UInt32.add_sub_cancel, UInt32.toNat_add]
  rfl

end places

theorem read_agrees (p q : Side) (b : SharedBytes) (c : Cell) : b.read p c = b.read q c := by
  cases c <;> simp only [SharedBytes.read, offset_initCheck, offset_channelSize, offset_indexData,
    offset_bufferStart, offset_head, offset_tail, offset_data]

def home : Cell → Nat
  | .initCheck => 0
  | .channelSize i => 4 + 4 * i
  | .indexData i => 44 + 4 * i
  | .bufferStart i => 84 + 4 * i
  | .head i => 124 + 4 * i
  | .tail i => 164 + 4 * i
  | .data k => (204 + k.toNat) % 2 ^ 32
  | .pruData _ => 0

def width : Cell → Nat
  | .data _ => 1
  | .pruData _ => 0
  | _ => 4

theorem homes_apart {c d : Cell} (here : InMap c) (there : InMap d) (other : d ≠ c) :
    home c + width c ≤ home d ∨ home d + width d ≤ home c := by
  simp only [InMap, totalBufferSize] at here there
  cases c <;> cases d <;> simp only [home, width] at * <;> grind [UInt32.toNat_inj]

theorem read_congr {p : Side} {b b' : SharedBytes} {c : Cell}
    (same : ∀ x, home c ≤ x → x < home c + width c → b'.shared x = b.shared x)
    (array : b'.pruData = b.pruData) : b'.read p c = b.read p c := by
  have four : ∀ a, home c = a → width c = 4 → word b'.shared a = word b.shared a := by
    intro a first wide
    apply word_congr
    intro k few
    exact same (a + k) (by omega) (by omega)
  cases c with
  | data k => exact same _ (by rw [offset_data, home]) (by rw [offset_data, home, width]; omega)
  | pruData i => exact congrFun array i
  | initCheck => exact four _ (offset_initCheck p).symm rfl
  | channelSize i => exact four _ (offset_channelSize p i).symm rfl
  | indexData i => exact four _ (offset_indexData p i).symm rfl
  | bufferStart i => exact four _ (offset_bufferStart p i).symm rfl
  | head i => exact four _ (offset_head p i).symm rfl
  | tail i => exact four _ (offset_tail p i).symm rfl

theorem setWord_outside {p : Side} {b : SharedBytes} {a v : UInt32} {x first : Nat}
    (start : offset p a = first) (outside : x < first ∨ first + 4 ≤ x) :
    (b.setWord p a v).shared x = b.shared x := by
  subst start
  exact putWord_outside outside

theorem write_outside {p : Side} {b : SharedBytes} {c : Cell} {v : c.Val} {x : Nat}
    (outside : x < home c ∨ home c + width c ≤ x) : (b.write p c v).shared x = b.shared x := by
  cases c with
  | data k =>
    have other : x ≠ offset p ((pointers p).data + k) := by
      rw [offset_data]
      simp only [home, width] at outside
      omega
    exact Function.update_of_ne other _ _
  | pruData i => rfl
  | initCheck => exact setWord_outside (offset_initCheck p) outside
  | channelSize i => exact setWord_outside (offset_channelSize p i) outside
  | indexData i => exact setWord_outside (offset_indexData p i) outside
  | bufferStart i => exact setWord_outside (offset_bufferStart p i) outside
  | head i => exact setWord_outside (offset_head p i) outside
  | tail i => exact setWord_outside (offset_tail p i) outside

theorem write_pruData {p : Side} {b : SharedBytes} {c : Cell} {v : c.Val}
    (other : ∀ i, c ≠ .pruData i) : (b.write p c v).pruData = b.pruData := by
  cases c with
  | pruData i => exact absurd rfl (other i)
  | _ => rfl

/-- What one processor stores to a word or a ring byte the other loads, and no other cell
    changes. -/
theorem sharedRam_keeps : sharedRam.Keeps InMap := by
  constructor
  · intro p q b c v _
    change (b.write p c v).read q c = v
    rw [read_agrees q p]
    cases c with
    | data k => exact Function.update_self _ _ _
    | pruData i => exact Function.update_self _ _ _
    | _ => exact word_putWord
  · intro p q b c d v here there other
    change (b.write p c v).read q d = b.read q d
    cases c with
    | pruData i => cases d with
      | pruData j => exact Function.update_of_ne (fun same => other (congrArg _ same)) _ _
      | _ => rfl
    | _ =>
      apply read_congr
      · intro x low high
        apply write_outside
        have apart := homes_apart here there other
        omega
      · exact write_pruData (by simp)

def SharedBytes.cells (b : SharedBytes) : Ram where
  initCheck := b.read .arm .initCheck
  channelSize i := b.read .arm (.channelSize i)
  indexData i := b.read .arm (.indexData i)
  bufferStart i := b.read .arm (.bufferStart i)
  head i := b.read .arm (.head i)
  tail i := b.read .arm (.tail i)
  data k := b.read .arm (.data k)
  pruData i := b.read .arm (.pruData i)

theorem cells_get (b : SharedBytes) (c : Cell) : b.cells.get c = b.read .arm c := by
  cases c <;> rfl

theorem shows_cells (b : SharedBytes) : sharedRam.Shows InMap b b.cells := by
  intro p c _
  exact (read_agrees p .arm b c).trans (cells_get b c).symm

def Op.prepareBytes : Op → SharedBytes → SharedBytes
  | .firmwareWrite _ pruData _, b => { b with pruData := pruData }
  | _, b => b

def byteParties (ρ : Roles) : Clients Side Op Cell Cell.Val Fault Ret SharedBytes :=
  ⟨ρ.Allowed, Op.prepareBytes, Op.body⟩

theorem byteParties_same (ρ : Roles) : Device.Same sharedRam InMap (byteParties ρ) (parties ρ) := by
  refine ⟨rfl, rfl, ?_⟩
  intro k b m shows p c inside
  cases k with
  | firmwareWrite d pruData length =>
    cases c with
    | pruData i => rfl
    | _ => exact shows p _ inside
  | _ => exact shows p c inside

theorem in_map_of_data {a : Access Cell Cell.Val}
    (bounds : ∀ x ∈ dataCell a, x.toNat < totalBufferSize) : InMap a.cell := by
  cases a with
  | load c => cases c <;> first | trivial | exact bounds _ rfl
  | store c v => cases c <;> first | trivial | exact bounds _ rfl

theorem initChannels_in_map (buf : Driver.Text) :
    (Driver.initChannels buf).Only fun a => InMap a.cell := by
  have only : (Driver.initChannels buf).Only fun a => dataCell a = none := by
    rw [Driver.initChannels, Driver.scanSizes_eq]
    refine (Driver.storeSizes_dataless _ _).bind fun _ => ?_
    refine (Driver.layoutLoop_dataless _ _).bind fun _ => ?_
    exact ⟨rfl, rfl, fun _ => trivial⟩
  exact only.weaken fun a none => in_map_of_data (by simp [none])

theorem init_shows {buf : Driver.Text} (few : (Driver.numbers buf).length ≤ 10)
    {b₀ b : SharedBytes} {r : Nat}
    (run : sharedRam.run .arm (Driver.initChannels buf) b₀ = .ok (r, b)) :
    ∃ m, AfterInit m ∧ sharedRam.Shows InMap b m := by
  have above := Driver.initChannels_run buf b₀.cells few
  obtain ⟨b', below, shows⟩ :=
    (shows_cells b₀).run sharedRam_keeps (initChannels_in_map buf) (i := .arm) above
  rw [run] at below
  cases below
  exact ⟨_, ⟨buf, _, _, few, above⟩, shows⟩

/-- A run of the two processors on the bytes, against one on the cells, in which every party
    stands at the same point and has made the same accesses; the next access of a party is to a
    word or to a byte that is mapped. -/
structure RunsAsCells (t : Conf Side Op Cell Cell.Val Fault Ret SharedBytes) (s : State) :
    Prop where
  refines : Device.Refines sharedRam InMap t s
  mapped : ∀ p k body a rest, t.busy p = some (k, body) →
    sharedRam.next p body t.world.mem = some (a, rest) → InMap a.cell

/-- After an init through the addresses of the ARM, whatever lay in the RAM before, the two
    processors, each through its own addresses, run on the bytes exactly as the parties run on
    the cells. -/
theorem bytes_run_as_cells (L : Layout) (buf : Driver.Text)
    (few : (Driver.numbers buf).length ≤ 10) (b₀ b : SharedBytes) (r : Nat)
    (run : sharedRam.run .arm (Driver.initChannels buf) b₀ = .ok (r, b))
    (sizes : ∀ c, (b.read .arm (.channelSize c)).toNat = L.size c)
    (writer reader : Channel → Side) :
    ∃ m, LeftByInit L m ∧
      (∀ t, sharedRam.Reach (byteParties ⟨fun _ => True, writer, reader⟩) (Conf.start b) t →
        ∃ s, Reach (parties ⟨fun _ => True, writer, reader⟩) (Conf.start m) s ∧
          RunsAsCells t s) ∧
      ∀ s, Reach (parties ⟨fun _ => True, writer, reader⟩) (Conf.start m) s →
        ∃ t, sharedRam.Reach (byteParties ⟨fun _ => True, writer, reader⟩) (Conf.start b) t ∧
          RunsAsCells t s := by
  obtain ⟨m, init, shows⟩ := init_shows few run
  have left : LeftByInit L m := by
    refine ⟨init, fun c => ?_⟩
    rw [← sizes c]
    exact congrArg UInt32.toNat (shows .arm (.channelSize c) trivial).symm
  have confined : Confined InMap (parties ⟨fun _ => True, writer, reader⟩) m := by
    intro s reach p k body a rest inside next
    apply in_map_of_data
    intro x mem
    have ring : InRegion m k.channel x := holds_access (left.reach_holds reach) inside next x mem
    have bounds := left.laid.in_region ring
    have top := L.end_le k.channel
    omega
  have same := byteParties_same ⟨fun _ => True, writer, reader⟩
  have mapped : ∀ t s, Device.Refines sharedRam InMap t s →
      Reach (parties ⟨fun _ => True, writer, reader⟩) (Conf.start m) s → RunsAsCells t s := by
    intro t s refines reach
    refine ⟨refines, fun p k body a rest inside next => ?_⟩
    rw [refines.busy] at inside
    have keepsTo := fun a q => confined s reach p k body a q inside
    exact keepsTo a rest (refines.next next keepsTo)
  refine ⟨m, left, fun t reach => ?_, fun s reach => ?_⟩
  · obtain ⟨s, reached, refines⟩ :=
      Device.reach_down sharedRam_keeps same confined shows reach
    exact ⟨s, reached, mapped t s refines reached⟩
  · obtain ⟨t, reached, refines⟩ :=
      Device.reach_up sharedRam_keeps same confined shows reach
    exact ⟨t, reached, mapped t s refines reach⟩

def zeroBytes : SharedBytes := ⟨fun _ => 0, fun _ => 0⟩

theorem bytes_run_as_cells_pairs :
    ∃ b r m, sharedRam.run .arm (Driver.initChannels pairsText) zeroBytes = .ok (r, b) ∧
      LeftByInit pairs m ∧
      ∀ t, sharedRam.Reach (byteParties (armToPru fun _ => True)) (Conf.start b) t →
        ∃ s, Reach (parties (armToPru fun _ => True)) (Conf.start m) s ∧ RunsAsCells t s := by
  have few : (Driver.numbers pairsText).length ≤ 10 := by decide
  obtain ⟨b, run, shows⟩ := (shows_cells zeroBytes).run sharedRam_keeps
    (initChannels_in_map pairsText) (i := .arm) (Driver.initChannels_run pairsText _ few)
  have sizes : ∀ c, (b.read .arm (.channelSize c)).toNat = pairs.size c := by
    intro c
    have size := (shows .arm (.channelSize c) trivial).trans (congrFun pairs_sizes c)
    exact congrArg UInt32.toNat size
  obtain ⟨m, left, down, -⟩ := bytes_run_as_cells pairs pairsText few zeroBytes b _ run sizes
    (fun _ => .arm) (fun _ => .pru)
  exact ⟨b, _, m, run, left, down⟩

end PruBridge
