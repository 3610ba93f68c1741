import Zetascale.Lib.Transducer

/-!
# Ring buffers

An array of `size` cells with a head and a tail index. The cell at the head is
written first and the head moved on; where it runs into the tail, the oldest
value is handed out and the tail moved on too. So a ring of `size` cells keeps
the last `size - 1` values, and everything older leaves it in order.
-/

namespace Zetascale

open Function List

universe u

/-- The cells between `tail` and `head`, cyclically. -/
structure Ring (α : Type u) where
  size : ℕ
  head : ℕ
  tail : ℕ
  cell : ℕ → α

namespace Ring

variable {α : Type u}

/-- Both indices lie in the array. -/
structure Valid (r : Ring α) : Prop where
  head_lt : r.head < r.size
  tail_lt : r.tail < r.size

/-- The number of values held. -/
def count (r : Ring α) : ℕ :=
  if r.tail ≤ r.head then r.head - r.tail else r.size - r.tail + r.head

/-- The values held, oldest first. -/
def toList (r : Ring α) : List α :=
  (range r.count).map fun i => r.cell ((r.tail + i) % r.size)

/-- Write a value at the head; give back the oldest value if the ring is full. -/
def add (r : Ring α) (x : α) : Ring α × Option α :=
  let cell := update r.cell r.head x
  let head := (r.head + 1) % r.size
  if head = r.tail then
    ({ r with cell, head, tail := (r.tail + 1) % r.size }, some (cell r.tail))
  else ({ r with cell, head }, none)

/-- Add values one after the other; collect what is given back. -/
def addAll (r : Ring α) (xs : List α) : Ring α × List α :=
  feed (fun ring x => ((ring.add x).1, (ring.add x).2.toList)) r xs

variable {r : Ring α}

theorem count_lt (valid : r.Valid) : r.count < r.size := by
  have := valid.head_lt
  unfold count
  split <;> omega

@[simp] theorem length_toList : r.toList.length = r.count := by simp [toList]

/-- The head is `count` cells behind the tail. -/
theorem head_eq (valid : r.Valid) : r.head = (r.tail + r.count) % r.size := by
  have headLt := valid.head_lt
  have tailLt := valid.tail_lt
  unfold count
  split
  · rw [show r.tail + (r.head - r.tail) = r.head by omega, Nat.mod_eq_of_lt headLt]
  · rw [show r.tail + (r.size - r.tail + r.head) = r.head + r.size by omega, Nat.add_mod_right,
      Nat.mod_eq_of_lt headLt]

theorem wrap_injective {base i j n : ℕ} (iLt : i < n) (jLt : j < n)
    (same : (base + i) % n = (base + j) % n) : i = j := by
  have shifted := Nat.ModEq.add_left_cancel' (n := n) base same
  exact Nat.ModEq.eq_of_lt_of_lt shifted iLt jLt

theorem next_eq {i n : ℕ} (lt : i < n) : (i + 1) % n = if i + 1 = n then 0 else i + 1 := by
  split
  case isTrue last => rw [last, Nat.mod_self]
  case isFalse inner => exact Nat.mod_eq_of_lt (by omega)

/-- With the new value written, the cells from the tail on are the old values and the new one. -/
theorem cells_updated (valid : r.Valid) (x : α) : (range (r.count + 1)).map
        (fun i => update r.cell r.head x ((r.tail + i) % r.size)) = r.toList ++ [x] := by
  have room := count_lt valid
  rw [range_succ, map_append, toList]
  congr 1
  · apply map_congr_left
    intro i mem
    have lt := mem_range.mp mem
    rw [update_of_ne]
    intro same
    rw [head_eq valid] at same
    have := wrap_injective (by omega) room same
    omega
  · simp [← head_eq valid]

/-- While there is room, a value is appended. -/
theorem toList_add_of_lt (valid : r.Valid) (x : α) (room : r.count + 1 < r.size) :
    (r.add x).1.toList = r.toList ++ [x] ∧ (r.add x).2 = none := by
  have headLt := valid.head_lt
  have apart : (r.head + 1) % r.size ≠ r.tail := by
    rw [next_eq headLt]
    unfold count at room
    split_ifs at room ⊢ <;> omega
  have grown : count ⟨r.size, (r.head + 1) % r.size, r.tail, update r.cell r.head x⟩ =
      r.count + 1 := by
    rw [next_eq headLt] at apart ⊢
    unfold count at room ⊢
    split_ifs at room apart ⊢ <;> simp only at * <;> omega
  rw [add, if_neg apart]
  exact ⟨by rw [toList, grown]; exact cells_updated valid x, rfl⟩

/-- A full ring gives back its oldest value. -/
theorem toList_add_of_full (valid : r.Valid) (x : α) (full : r.count + 1 = r.size) :
    ∃ oldest, (r.add x).2 = some oldest ∧ oldest :: (r.add x).1.toList = r.toList ++ [x] := by
  have headLt := valid.head_lt
  have tailLt := valid.tail_lt
  have met : (r.head + 1) % r.size = r.tail := by
    rw [next_eq headLt]
    unfold count at full
    split_ifs at full ⊢ <;> omega
  have same : count ⟨r.size, (r.head + 1) % r.size, (r.tail + 1) % r.size,
      update r.cell r.head x⟩ = r.count := by
    rw [met, next_eq tailLt]
    unfold count at full ⊢
    split_ifs at full ⊢ <;> simp only at * <;> omega
  rw [add, if_pos met]
  refine ⟨_, rfl, ?_⟩
  rw [toList, same, ← cells_updated valid x, range_succ_eq_map, map_cons, map_map]
  congr 1
  · rw [add_zero, Nat.mod_eq_of_lt tailLt]
  · apply map_congr_left
    intro i _
    simp only [comp_apply, Nat.mod_add_mod]
    rw [add_right_comm, add_assoc]

theorem Valid.add (valid : r.Valid) (x : α) : (r.add x).1.Valid := by
  have pos : 0 < r.size := lt_of_le_of_lt (Nat.zero_le _) valid.head_lt
  rw [Ring.add]
  split
  · exact ⟨Nat.mod_lt _ pos, Nat.mod_lt _ pos⟩
  · exact ⟨Nat.mod_lt _ pos, valid.tail_lt⟩

@[simp] theorem size_add (x : α) : (r.add x).1.size = r.size := by
  rw [Ring.add]
  split <;> rfl

/-- Nothing is lost or reordered: what comes out, then what is held. -/
theorem add_toList (valid : r.Valid) (x : α) :
    (r.add x).2.toList ++ (r.add x).1.toList = r.toList ++ [x] := by
  rcases Nat.lt_or_eq_of_le (Nat.succ_le_of_lt (count_lt valid)) with room | full
  · obtain ⟨held, none⟩ := toList_add_of_lt valid x room
    rw [none, held]
    rfl
  · obtain ⟨oldest, out, held⟩ := toList_add_of_full valid x full
    rw [out]
    exact held

theorem count_add (valid : r.Valid) (x : α) :
    (r.add x).1.count = min (r.count + 1) (r.size - 1) := by
  rcases Nat.lt_or_eq_of_le (Nat.succ_le_of_lt (count_lt valid)) with room | full
  · have held := congrArg length (toList_add_of_lt valid x room).1
    simp only [length_toList, length_append, length_singleton] at held
    omega
  · obtain ⟨oldest, _, held⟩ := toList_add_of_full valid x full
    have held := congrArg length held
    simp only [length_toList, length_append, length_cons, length_nil] at held
    omega

theorem addAll_cons (x : α) (xs : List α) :
    r.addAll (x :: xs) = (((r.add x).1.addAll xs).1, (r.add x).2.toList ++ ((r.add x).1.addAll xs).2) :=
  rfl

theorem Valid.addAll (valid : r.Valid) (xs : List α) : (r.addAll xs).1.Valid :=
  feed_induction (fun held x _ => held.add x) valid

@[simp] theorem size_addAll (xs : List α) : (r.addAll xs).1.size = r.size := by
  induction xs generalizing r with
  | nil => rfl
  | cons x xs ih => rw [addAll_cons, ih, size_add]

theorem addAll_toList (valid : r.Valid) (xs : List α) :
    (r.addAll xs).2 ++ (r.addAll xs).1.toList = r.toList ++ xs := by
  induction xs generalizing r with
  | nil => simp [addAll]
  | cons x xs ih =>
    rw [addAll_cons, append_assoc, ih (valid.add x), ← append_assoc, add_toList valid x,
      append_assoc, singleton_append]

theorem count_addAll (valid : r.Valid) (xs : List α) :
    (r.addAll xs).1.count = min (r.count + xs.length) (r.size - 1) := by
  induction xs generalizing r with
  | nil =>
    have := count_lt valid
    simp only [addAll, feed_nil, length_nil]
    omega
  | cons x xs ih =>
    rw [addAll_cons, ih (valid.add x), count_add valid x, size_add, length_cons]
    omega

/-- The ring keeps the last `size - 1` of all values and has let go the ones before, in order. -/
theorem addAll_eq (valid : r.Valid) (xs : List α) :
    (r.addAll xs).2 = (r.toList ++ xs).take (r.count + xs.length - (r.size - 1)) ∧
      (r.addAll xs).1.toList = (r.toList ++ xs).drop (r.count + xs.length - (r.size - 1)) := by
  have whole := addAll_toList valid xs
  have kept := count_addAll valid xs
  have gone : (r.addAll xs).2.length = r.count + xs.length - (r.size - 1) := by
    have lengths := congrArg length whole
    simp only [length_append, length_toList] at lengths
    omega
  rw [← whole, ← gone]
  exact ⟨take_left.symm, drop_left.symm⟩

end Ring

end Zetascale
