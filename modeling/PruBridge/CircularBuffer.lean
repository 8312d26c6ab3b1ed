import Mathlib.Data.Fin.Basic
import Mathlib.Data.List.Basic
import Mathlib.Data.List.TakeDrop
import Mathlib.Data.Nat.ModEq
import Mathlib.Logic.Function.Basic

/-!
Circular buffers with a head, a tail and a separate counter, against bounded queues.
The counter saturates, and `put` on a full ring moves the tail alone, so the tail may
run ahead of `head + count`. `Follows` measures that lead; everything a reader of the
ring can rely on is a statement about the lead modulo the capacity.
-/
namespace CircularBuffer

def around {n : Nat} (i : Fin n) (j : Nat) : Fin n := ⟨(i + j) % n, Nat.mod_lt _ i.pos⟩

section positions
variable {n : Nat} (i : Fin n)

@[simp] theorem around_zero : around i 0 = i := by
  apply Fin.ext
  exact Nat.mod_eq_of_lt i.isLt

@[simp] theorem around_around (j k : Nat) : around (around i j) k = around i (j + k) := by
  apply Fin.ext
  simp only [around, Nat.mod_add_mod, Nat.add_assoc]

theorem around_eq_iff (j k : Nat) : around i j = around i k ↔ j % n = k % n := by
  constructor
  · intro same
    have values : (i + j) % n = (i + k) % n := congrArg Fin.val same
    exact Nat.ModEq.add_left_cancel' i.val values
  · intro same
    exact Fin.ext (Nat.ModEq.add_left i.val same)

theorem around_injective {j k : Nat} (hj : j < n) (hk : k < n)
    (same : around i j = around i k) : j = k := by
  have values := (around_eq_iff i j k).mp same
  rwa [Nat.mod_eq_of_lt hj, Nat.mod_eq_of_lt hk] at values

theorem around_self_iff (j : Nat) : around i j = i ↔ n ∣ j := by
  have h := around_eq_iff i j 0
  rw [around_zero, Nat.zero_mod] at h
  exact h.trans Nat.dvd_iff_mod_eq_zero.symm

@[simp] theorem around_size : around i n = i := (around_self_iff i n).mpr (Nat.dvd_refl n)

end positions

section windows
variable {α : Type*} {n : Nat}

def window (cells : Fin n → α) (i : Fin n) (len : Nat) : List α :=
  (List.range len).map fun j => cells (around i j)

variable (cells : Fin n → α) (i : Fin n)

@[simp] theorem window_zero : window cells i 0 = [] := rfl

@[simp] theorem window_length (len : Nat) : (window cells i len).length = len := by
  simp [window]

theorem window_cons (len : Nat) :
    window cells i (len + 1) = cells i :: window cells (around i 1) len := by
  simp only [window, List.range_succ_eq_map, List.map_cons, List.map_map, around_zero]
  congr 1
  apply List.map_congr_left
  intro j _
  simp only [Function.comp_apply, around_around, Nat.add_comm]

theorem window_append (len k : Nat) :
    window cells i (len + k) = window cells i len ++ window cells (around i len) k := by
  induction len generalizing i with
  | zero => simp
  | succ len ih =>
    rw [Nat.add_right_comm, window_cons, window_cons, ih, around_around, Nat.add_comm 1 len]
    rfl

theorem window_snoc (len : Nat) :
    window cells i (len + 1) = window cells i len ++ [cells (around i len)] := by
  rw [window_append, window_cons, window_zero]

theorem window_drop (len k : Nat) (le : k ≤ len) :
    (window cells i len).drop k = window cells (around i k) (len - k) := by
  obtain ⟨rest, rfl⟩ := Nat.exists_eq_add_of_le le
  rw [window_append, Nat.add_sub_cancel_left]
  exact List.drop_left' (window_length cells i k)

theorem window_take (len k : Nat) (le : k ≤ len) :
    (window cells i len).take k = window cells i k := by
  obtain ⟨rest, rfl⟩ := Nat.exists_eq_add_of_le le
  rw [window_append]
  exact List.take_left' (window_length cells i k)

theorem window_congr {cells cells' : Fin n → α} {i : Fin n} {len : Nat}
    (same : ∀ j, j < len → cells (around i j) = cells' (around i j)) :
    window cells i len = window cells' i len := by
  apply List.map_congr_left
  intro j mem
  exact same j (List.mem_range.mp mem)

theorem window_update_past {len : Nat} (room : len < n) (v : α) :
    window (Function.update cells (around i len) v) i len = window cells i len := by
  apply window_congr
  intro j hj
  apply Function.update_of_ne
  intro same
  have := around_injective i (by omega) room same
  omega

theorem window_update_snoc {len : Nat} (room : len < n) (v : α) :
    window (Function.update cells (around i len) v) i (len + 1) = window cells i len ++ [v] := by
  rw [window_snoc, window_update_past cells i room, Function.update_self]

theorem window_update_oldest (v : α) :
    window (Function.update cells i v) (around i 1) n = (window cells i n).tail ++ [v] := by
  obtain ⟨len, rfl⟩ := Nat.exists_eq_succ_of_ne_zero (Nat.ne_of_gt i.pos)
  have last : around (around i 1) len = i := by
    rw [around_around, Nat.add_comm 1 len]
    exact around_size i
  have kept := window_update_past cells (around i 1) (Nat.lt_succ_self len) v
  rw [last] at kept
  rw [window_snoc, kept, last, Function.update_self, window_cons, List.tail_cons]

end windows

structure Ring (α : Type*) (n : Nat) where
  cells : Fin n → α
  head : Fin n
  tail : Fin n
  count : Nat
  count_le : count ≤ n

/-- A queue of capacity `n` that drops its oldest element for a new one. -/
def offer {α : Type*} (n : Nat) (q : List α) (v : α) : List α :=
  if q.length < n then q ++ [v] else q.tail ++ [v]

def offerAll {α : Type*} (n : Nat) (q bs : List α) : List α :=
  (q ++ bs).drop (q.length + bs.length - n)

namespace Ring
variable {α : Type*} {n : Nat}

/-- The cells the reader takes to be unread. -/
def unread (r : Ring α n) : List α := window r.cells r.head r.count

/-- Store at the tail and move it, without counting. -/
def push (r : Ring α n) (v : α) : Ring α n :=
  { r with cells := Function.update r.cells r.tail v, tail := around r.tail 1 }

def pushAll (r : Ring α n) (bs : List α) : Ring α n := bs.foldl push r

def seek (r : Ring α n) (k : Nat) : Ring α n := { r with head := around r.head k }

def recount (r : Ring α n) (k : Nat) (le : k ≤ n) : Ring α n :=
  { r with count := k, count_le := le }

/-- Count `k` more cells as unread, up to the capacity. -/
def grant (r : Ring α n) (k : Nat) : Ring α n :=
  r.recount (min (r.count + k) n) (Nat.min_le_right _ _)

def release (r : Ring α n) (k : Nat) : Ring α n :=
  (r.seek k).recount (r.count - k) (Nat.le_trans (Nat.sub_le _ _) r.count_le)

def put (r : Ring α n) (v : α) : Ring α n := (r.push v).grant 1

def putAll (r : Ring α n) (bs : List α) : Ring α n := (r.pushAll bs).grant bs.length

/-- The ring holds the queue `q`, and its tail is `lead` places past the end of it:
    `lead` bytes have been stored while the ring was full. -/
structure Follows (r : Ring α n) (q : List α) (lead : Nat) : Prop where
  count : r.count = q.length
  tail : r.tail = around r.head (q.length + lead)
  queue : q = window r.cells (around r.head lead) q.length

@[simp] theorem push_head (r : Ring α n) (v : α) : (r.push v).head = r.head := rfl
@[simp] theorem push_count (r : Ring α n) (v : α) : (r.push v).count = r.count := rfl
@[simp] theorem grant_head (r : Ring α n) (k : Nat) : (r.grant k).head = r.head := rfl
@[simp] theorem grant_tail (r : Ring α n) (k : Nat) : (r.grant k).tail = r.tail := rfl
@[simp] theorem grant_cells (r : Ring α n) (k : Nat) : (r.grant k).cells = r.cells := rfl
@[simp] theorem grant_count (r : Ring α n) (k : Nat) :
    (r.grant k).count = min (r.count + k) n := rfl
@[simp] theorem release_cells (r : Ring α n) (k : Nat) : (r.release k).cells = r.cells := rfl
@[simp] theorem release_tail (r : Ring α n) (k : Nat) : (r.release k).tail = r.tail := rfl
@[simp] theorem release_head (r : Ring α n) (k : Nat) :
    (r.release k).head = around r.head k := rfl
@[simp] theorem release_count (r : Ring α n) (k : Nat) :
    (r.release k).count = r.count - k := rfl

theorem ext_fields {r s : Ring α n} (cells : r.cells = s.cells) (head : r.head = s.head)
    (tail : r.tail = s.tail) (count : r.count = s.count) : r = s := by
  cases r; cases s
  simp_all

@[simp] theorem pushAll_head (r : Ring α n) (bs : List α) : (r.pushAll bs).head = r.head := by
  induction bs generalizing r with
  | nil => rfl
  | cons b bs ih => exact ih (r.push b)

@[simp] theorem pushAll_count (r : Ring α n) (bs : List α) : (r.pushAll bs).count = r.count := by
  induction bs generalizing r with
  | nil => rfl
  | cons b bs ih => exact ih (r.push b)

@[simp] theorem putAll_head (r : Ring α n) (bs : List α) : (r.putAll bs).head = r.head :=
  pushAll_head r bs

@[simp] theorem putAll_count (r : Ring α n) (bs : List α) :
    (r.putAll bs).count = min (r.count + bs.length) n := by
  rw [putAll, grant_count, pushAll_count]

theorem push_grant (r : Ring α n) (v : α) (k : Nat) :
    (r.grant k).push v = (r.push v).grant k := rfl

theorem grant_zero (r : Ring α n) : r.grant 0 = r :=
  ext_fields rfl rfl rfl (Nat.min_eq_left r.count_le)

theorem grant_grant (r : Ring α n) (j k : Nat) : (r.grant j).grant k = r.grant (j + k) := by
  refine ext_fields rfl rfl rfl ?_
  simp only [grant_count]
  omega

theorem pushAll_grant (r : Ring α n) (bs : List α) (k : Nat) :
    (r.grant k).pushAll bs = (r.pushAll bs).grant k := by
  induction bs generalizing r with
  | nil => rfl
  | cons b bs ih =>
    change ((r.grant k).push b).pushAll bs = _
    rw [push_grant, ih]
    rfl

theorem putAll_cons (r : Ring α n) (b : α) (bs : List α) :
    r.putAll (b :: bs) = (r.put b).putAll bs := by
  change ((r.push b).pushAll bs).grant (bs.length + 1) = (((r.push b).grant 1).pushAll bs).grant _
  rw [pushAll_grant, grant_grant, Nat.add_comm]

@[simp] theorem putAll_nil (r : Ring α n) : r.putAll [] = r := grant_zero r

theorem follows_empty (r : Ring α n) (count : r.count = 0) (tail : r.tail = r.head) :
    r.Follows [] 0 :=
  ⟨count, by simpa using tail, rfl⟩

/-- The next put goes right behind the queue just when the lead is a whole number of turns. -/
theorem Follows.tail_iff {r : Ring α n} {q : List α} {lead : Nat} (h : r.Follows q lead) :
    r.tail = around r.head q.length ↔ n ∣ lead := by
  rw [h.tail, ← around_around, around_self_iff]

theorem Follows.length_le {r : Ring α n} {q : List α} {lead : Nat} (h : r.Follows q lead) :
    q.length ≤ n := h.count ▸ r.count_le

/-- A put appends while there is room; on a full ring it drops the oldest element of the
    queue, and the tail gains one more place on the head. -/
theorem Follows.put {r : Ring α n} {q : List α} {lead : Nat} (h : r.Follows q lead) (v : α) :
    (r.put v).Follows (offer n q v) (lead + (q.length + 1 - n)) := by
  have le := h.length_le
  by_cases room : q.length < n
  · have same : q.length + 1 - n = 0 := by omega
    have tail : r.tail = around (around r.head lead) q.length := by
      rw [h.tail, around_around, Nat.add_comm lead]
    simp only [offer, room, ↓reduceIte, same, Nat.add_zero]
    refine ⟨?_, ?_, ?_⟩
    · simp only [Ring.put, grant_count, push_count, h.count, List.length_append,
        List.length_singleton]
      omega
    · change around r.tail 1 = around r.head _
      rw [h.tail, around_around, List.length_append, List.length_singleton]
      congr 1
      omega
    · change _ = window (Function.update r.cells r.tail v) (around r.head lead) _
      rw [List.length_append, List.length_singleton, tail, window_update_snoc _ _ room, ← h.queue]
  · have full : q.length = n := by omega
    have tail : r.tail = around r.head lead := by
      rw [h.tail, around_eq_iff, full]
      exact Nat.add_mod_left n lead
    have more : q.length + 1 - n = 1 := by omega
    simp only [offer, room, ↓reduceIte, more]
    have length : (q.tail ++ [v]).length = n := by
      simp only [List.length_append, List.length_tail, List.length_singleton]
      omega
    refine ⟨?_, ?_, ?_⟩
    · simp only [Ring.put, grant_count, push_count, h.count, length]
      omega
    · change around r.tail 1 = around r.head _
      rw [tail, around_around, length, around_eq_iff, Nat.add_mod_left]
    · change _ = window (Function.update r.cells r.tail v) (around r.head (lead + 1)) _
      rw [length, tail, ← around_around, window_update_oldest]
      have queue : q = window r.cells (around r.head lead) n := full ▸ h.queue
      rw [← queue]

theorem Follows.release {r : Ring α n} {q : List α} {lead k : Nat} (h : r.Follows q lead)
    (le : k ≤ q.length) : (r.release k).Follows (q.drop k) lead := by
  refine ⟨?_, ?_, ?_⟩
  · rw [release_count, List.length_drop, h.count]
  · rw [release_tail, release_head, h.tail, around_around, List.length_drop]
    congr 1
    omega
  · rw [release_head, release_cells, around_around, List.length_drop, Nat.add_comm k,
      ← around_around, ← window_drop _ _ _ _ le, ← h.queue]

theorem offerAll_nil {q : List α} (le : q.length ≤ n) : offerAll n q [] = q := by
  have : q.length + ([] : List α).length - n = 0 := by simp only [List.length_nil]; omega
  rw [offerAll, this, List.append_nil, List.drop_zero]

theorem offer_length (q : List α) (v : α) (pos : 0 < n) (le : q.length ≤ n) :
    (offer n q v).length = min (q.length + 1) n := by
  unfold offer
  split <;> simp only [List.length_append, List.length_tail, List.length_singleton] <;> omega

theorem offerAll_cons {q : List α} (pos : 0 < n) (le : q.length ≤ n) (b : α) (bs : List α) :
    offerAll n q (b :: bs) = offerAll n (offer n q b) bs := by
  have length := offer_length q b pos le
  simp only [offerAll, length, List.length_cons]
  by_cases room : q.length < n
  · simp only [offer, room, ↓reduceIte, List.append_assoc, List.singleton_append]
    congr 1
    omega
  · have full : q.length = n := by omega
    obtain ⟨a, rest, rfl⟩ := List.exists_cons_of_length_pos (by omega : 0 < q.length)
    simp only [offer, room, ↓reduceIte, List.tail_cons, List.append_assoc, List.cons_append,
      List.nil_append]
    have drop : (a :: rest).length + (bs.length + 1) - n =
        (min ((a :: rest).length + 1) n + bs.length - n) + 1 := by
      simp only [List.length_cons] at *
      omega
    rw [drop, List.drop_succ_cons]

theorem Follows.putAll {r : Ring α n} {q : List α} {lead : Nat} (h : r.Follows q lead)
    (bs : List α) :
    (r.putAll bs).Follows (offerAll n q bs) (lead + (q.length + bs.length - n)) := by
  induction bs generalizing r q lead with
  | nil =>
    have le := h.length_le
    have none : q.length + ([] : List α).length - n = 0 := by simp only [List.length_nil]; omega
    rw [putAll_nil, offerAll_nil le, none]
    exact h
  | cons b bs ih =>
    have le := h.length_le
    have pos := r.head.pos
    have length := offer_length q b pos le
    rw [putAll_cons, offerAll_cons pos le]
    have later := ih (h.put b)
    have total : lead + (q.length + 1 - n) + ((offer n q b).length + bs.length - n) =
        lead + (q.length + (b :: bs).length - n) := by
      simp only [length, List.length_cons]
      omega
    rwa [total] at later

/-- The oldest `k` counted cells are the front of the queue when the lead is a whole
    number of turns. -/
theorem Follows.window_take {r : Ring α n} {q : List α} {lead k : Nat} (h : r.Follows q lead)
    (turns : n ∣ lead) (le : k ≤ q.length) : window r.cells r.head k = q.take k := by
  have queue := h.queue
  rw [(around_self_iff r.head lead).mpr turns] at queue
  rw [queue, CircularBuffer.window_take _ _ _ _ le]

theorem Follows.unread {r : Ring α n} {q : List α} {lead : Nat} (h : r.Follows q lead)
    (turns : n ∣ lead) : r.unread = q := by
  rw [Ring.unread, h.count, h.window_take turns (Nat.le_refl _), List.take_length]

end Ring

end CircularBuffer
