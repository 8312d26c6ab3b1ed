import PruBridge.CircularBuffer

/-!
A ring against the tape of everything that was ever put into it. The ring counts no further
than its capacity, and a put on a full ring moves the tail alone: the reader then finds
elements of a later turn at the places it comes to. What it finds is fixed by the tape and by
the number of elements it has taken.
-/
namespace CircularBuffer

/-- Of the positions below `len`, the last one that is `p` or whole turns of `n` after it. -/
def lastTurn (n len p : Nat) : Nat := p + n * ((len - 1 - p) / n)

section turns
variable {n len p : Nat}

theorem lastTurn_lt (less : p < len) : lastTurn n len p < len := by
  have le := Nat.mul_div_le (len - 1 - p) n
  unfold lastTurn
  omega

theorem le_lastTurn (pos : 0 < n) (less : p < len) : len ≤ lastTurn n len p + n := by
  have parts := Nat.div_add_mod (len - 1 - p) n
  have rest := Nat.mod_lt (len - 1 - p) pos
  unfold lastTurn
  omega

theorem lastTurn_mod : lastTurn n len p % n = p % n := Nat.add_mul_mod_self_left p n _

/-- In steps of `k` elements the last turn is the same one for a whole step. -/
theorem lastTurn_scaled {k a l q j : Nat} (inside : j < k) (less : q < l) :
    lastTurn (k * a) (k * l) (k * q + j) = k * lastTurn a l q + j := by
  obtain ⟨s, rfl⟩ : ∃ s, l = q + 1 + s := ⟨l - q - 1, by omega⟩
  have steps : q + 1 + s - 1 - q = s := by omega
  have rest : k * (q + 1 + s) - 1 - (k * q + j) = k * s + (k - 1 - j) := by
    rw [Nat.mul_add, Nat.mul_add, Nat.mul_one]
    omega
  have pos : 0 < k := by omega
  have part : k - 1 - j < k := by omega
  have turns : (k * s + (k - 1 - j)) / (k * a) = s / a := by
    rw [← Nat.div_div_eq_div_mul, Nat.mul_add_div pos, Nat.div_eq_of_lt part, Nat.add_zero]
  unfold lastTurn
  rw [rest, turns, steps, Nat.mul_add, Nat.mul_assoc]
  omega

end turns

/-- Everything put, how many elements were taken, and how many the ring counts as unread. -/
structure History (α : Type*) (n : Nat) where
  tape : List α
  taken : Nat
  count : Nat
  within : taken + count ≤ tape.length
  count_le : count ≤ n

namespace History
variable {α : Type*} {n : Nat}

def empty : History α n := ⟨[], 0, 0, Nat.le_refl 0, Nat.zero_le n⟩

theorem write_within (h : History α n) (bs : List α) :
    h.taken + min (h.count + bs.length) n ≤ (h.tape ++ bs).length := by
  have within := h.within
  rw [List.length_append]
  omega

def write (h : History α n) (bs : List α) : History α n :=
  ⟨h.tape ++ bs, h.taken, min (h.count + bs.length) n, h.write_within bs, Nat.min_le_right _ _⟩

theorem write_cons (h : History α n) (b : α) (bs : List α) :
    (h.write [b]).write bs = h.write (b :: bs) := by
  have tape : h.tape ++ [b] ++ bs = h.tape ++ b :: bs := by simp
  have count : min (min (h.count + [b].length) n + bs.length) n =
      min (h.count + (b :: bs).length) n := by
    simp only [List.length_cons, List.length_nil]
    omega
  simp only [write, tape, count]

theorem write_nil (h : History α n) : h.write [] = h := by
  have le := h.count_le
  cases h
  simp_all [write]

theorem read_within (h : History α n) (k : Nat) :
    h.taken + min k h.count + (h.count - k) ≤ h.tape.length := by
  have within := h.within
  omega

def read (h : History α n) (k : Nat) : History α n :=
  ⟨h.tape, h.taken + min k h.count, h.count - k, h.read_within k,
    Nat.le_trans (Nat.sub_le _ _) h.count_le⟩

theorem place_lt (h : History α n) (j : Fin h.count) :
    lastTurn n h.tape.length (h.taken + j) < h.tape.length := by
  have within := h.within
  exact lastTurn_lt (by omega)

/-- What a reader gets next, and after that: at each place the element of the last turn. -/
def waiting (h : History α n) : List α :=
  List.ofFn fun j : Fin h.count => h.tape.get ⟨_, h.place_lt j⟩

theorem waiting_length (h : History α n) : h.waiting.length = h.count := List.length_ofFn

theorem waiting_getElem? (h : History α n) {j : Nat} (less : j < h.count) :
    h.waiting[j]? = h.tape[lastTurn n h.tape.length (h.taken + j)]? := by
  have within := h.within
  have place : lastTurn n h.tape.length (h.taken + j) < h.tape.length := lastTurn_lt (by omega)
  have inside : j < h.waiting.length := by rwa [h.waiting_length]
  rw [List.getElem?_eq_getElem place, List.getElem?_eq_getElem inside]
  simp [waiting]

theorem waiting_read (h : History α n) (k : Nat) : (h.read k).waiting = h.waiting.drop k := by
  apply List.ext_getElem?
  intro j
  have length := h.waiting_length
  have later := (h.read k).waiting_length
  change _ = h.count - k at later
  rw [List.getElem?_drop]
  by_cases less : j < h.count - k
  · have taken : h.taken + min k h.count + j = h.taken + (k + j) := by omega
    rw [(h.read k).waiting_getElem? less, h.waiting_getElem? (by omega)]
    change h.tape[lastTurn n h.tape.length (h.taken + min k h.count + j)]? = _
    rw [taken]
  · rw [List.getElem?_eq_none (by omega), List.getElem?_eq_none (by omega)]

theorem read_read (h : History α n) (j k : Nat) : (h.read j).read k = h.read (j + k) := by
  have taken : h.taken + min j h.count + min k (h.count - j) = h.taken + min (j + k) h.count := by
    omega
  have count : h.count - j - k = h.count - (j + k) := by omega
  simp only [read, taken, count]

theorem mem_tape_of_waiting (h : History α n) {x : α} (mem : x ∈ h.waiting) : x ∈ h.tape := by
  obtain ⟨j, rfl⟩ := List.mem_ofFn.mp mem
  exact List.get_mem _ _

theorem flatten_getElem? {k : Nat} {records : List (List α)} (whole : ∀ r ∈ records, r.length = k)
    (p : Nat) {j : Nat} (inside : j < k) :
    records.flatten[k * p + j]? = records[p]?.bind fun r => r[j]? := by
  induction records generalizing p with
  | nil => simp
  | cons r rest ih =>
    have length : r.length = k := whole r List.mem_cons_self
    have later := ih fun r mem => whole r (List.mem_cons_of_mem _ mem)
    rw [List.flatten_cons]
    cases p with
    | zero =>
      rw [Nat.mul_zero, Nat.zero_add, List.getElem?_append_left (by omega)]
      rfl
    | succ p =>
      have place : k * (p + 1) + j - r.length = k * p + j := by
        rw [length, Nat.mul_succ]
        omega
      rw [List.getElem?_append_right (by rw [length, Nat.mul_succ]; omega), place, later p,
        List.getElem?_cons_succ]

/-- Where elements are put and taken in records of `k` and the size is a multiple of `k`, a reader
    finds whole records, whatever was overwritten. -/
theorem waiting_record (h : History α n) {k : Nat} {records : List (List α)}
    (tape : h.tape = records.flatten) (whole : ∀ r ∈ records, r.length = k) (size : k ∣ n)
    (taken : k ∣ h.taken) (pos : 0 < k) (some : k ≤ h.count) :
    ∃ r ∈ records, h.waiting.take k = r := by
  obtain ⟨a, rfl⟩ := size
  obtain ⟨q, start⟩ := taken
  have length : h.tape.length = k * records.length := by
    rw [tape, List.length_flatten, List.map_congr_left (g := fun _ => k) whole, List.map_const',
      List.sum_replicate_nat, Nat.mul_comm]
  have within := h.within
  have before : q < records.length := by
    apply Nat.lt_of_mul_lt_mul_left (a := k)
    omega
  have place := lastTurn_lt (n := a) before
  refine ⟨records[lastTurn a records.length q], List.getElem_mem place, ?_⟩
  apply List.ext_getElem?
  intro j
  have whole' := whole _ (List.getElem_mem place)
  by_cases inside : j < k
  · rw [List.getElem?_take_of_lt inside, h.waiting_getElem? (by omega), start, length,
      lastTurn_scaled inside before, tape, flatten_getElem? whole _ inside,
      List.getElem?_eq_getElem place]
    rfl
  · rw [List.getElem?_eq_none (by rw [List.length_take]; omega), List.getElem?_eq_none (by omega)]

end History

namespace Ring
variable {α : Type*} {n : Nat}

structure Records (r : Ring α n) (h : History α n) : Prop where
  head : r.head.val = h.taken % n
  tail : r.tail.val = h.tape.length % n
  count : r.count = h.count
  cells : ∀ p : Fin h.tape.length, h.tape.length ≤ p + n → ∀ i : Fin n, i.val = p % n →
    r.cells i = h.tape.get p

section records
variable {r : Ring α n} {h : History α n}

theorem records_empty (r : Ring α n) (head : r.head.val = 0) (tail : r.tail.val = 0)
    (count : r.count = 0) : r.Records History.empty := by
  refine ⟨?_, ?_, count, fun p => p.elim0⟩
  · rw [head]
    exact (Nat.zero_mod n).symm
  · rw [tail]
    exact (Nat.zero_mod n).symm

theorem Records.put (records : r.Records h) (v : α) : (r.put v).Records (h.write [v]) := by
  have pos := r.head.pos
  have tail := records.tail
  have length : (h.write [v]).tape.length = h.tape.length + 1 := List.length_append
  refine ⟨records.head, ?_, ?_, ?_⟩
  · change (r.tail.val + 1) % n = _
    rw [tail, length, Nat.mod_add_mod]
  · change min (r.count + 1) n = _
    rw [records.count]
    rfl
  · intro p recent i place
    have less : p.val < h.tape.length + 1 := length ▸ p.isLt
    have near : h.tape.length + 1 ≤ p.val + n := by omega
    change Function.update r.cells r.tail v i = (h.tape ++ [v])[p.val]
    by_cases last : p.val = h.tape.length
    · have here : i = r.tail := by
        apply Fin.ext
        rw [place, tail, last]
      rw [here, Function.update_self]
      simp [last]
    · have before : p.val < h.tape.length := by omega
      have other : i ≠ r.tail := by
        intro same
        rw [same, tail] at place
        -- two positions of the tape less than a turn apart
        have apart := (Nat.modEq_iff_dvd' (Nat.le_of_lt before)).mp place.symm
        have turn := Nat.le_of_dvd (by omega) apart
        omega
      rw [Function.update_of_ne other, List.getElem_append_left before]
      exact records.cells ⟨p.val, before⟩ (Nat.le_of_succ_le near) i place

theorem Records.putAll (records : r.Records h) (bs : List α) :
    (r.putAll bs).Records (h.write bs) := by
  induction bs generalizing r h with
  | nil =>
    rw [putAll_nil, h.write_nil]
    exact records
  | cons b bs ih =>
    have next := ih (records.put b)
    rwa [History.write_cons, ← putAll_cons] at next

theorem Records.release (records : r.Records h) {k : Nat} (le : k ≤ h.count) :
    (r.release k).Records (h.read k) := by
  refine ⟨?_, records.tail, ?_, records.cells⟩
  · change (r.head.val + k) % n = (h.taken + min k h.count) % n
    rw [records.head, Nat.mod_add_mod, Nat.min_eq_left le]
  · rw [release_count, records.count]
    rfl

theorem Records.unread (records : r.Records h) : r.unread = h.waiting := by
  have pos := r.head.pos
  have within := h.within
  apply List.ext_getElem
  · rw [Ring.unread, window_length, h.waiting_length, records.count]
  · intro j less less'
    rw [h.waiting_length] at less'
    have before : h.taken + j < h.tape.length := by omega
    have place : (around r.head j).val = lastTurn n h.tape.length (h.taken + j) % n := by
      rw [lastTurn_mod]
      change (r.head.val + j) % n = _
      rw [records.head, Nat.mod_add_mod]
    have cell := records.cells ⟨_, lastTurn_lt before⟩ (le_lastTurn pos before) _ place
    simp only [Ring.unread, window, History.waiting, List.getElem_map, List.getElem_range,
      List.getElem_ofFn]
    exact cell

end records

end Ring

end CircularBuffer
