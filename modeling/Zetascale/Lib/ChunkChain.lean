import Mathlib

/-!
# Sequences kept in linked chunks

A sequence too long for one place is cut in chunks of a fixed size, each in a
cell of a heap that names the next cell. Cell 0 is no cell. The library has the
three operations on such chains (write a new one, read one, free one), the
predicate `Holds` that a chain of given cells holds a sequence, and the rules
that connect them: a written chain holds its sequence, a chain that holds a
sequence reads back as it, and a chain is untouched by changes to other cells.
Following a chain can fail at a cell; `followFailing` says how far it gets.
-/

namespace Zetascale.ChunkChain

open Function List

universe u

variable {β : Type u}

/-- A cell: the next cell, and a part of the sequence. -/
structure Chunk (β : Type u) where
  next : ℕ
  items : List β

abbrev Heap (β : Type u) := ℕ → Option (Chunk β)

/-- Writes a sequence in consecutive cells from `id` on. Returns the first cell
not used. -/
def write (size : ℕ) : ℕ → Heap β → ℕ → List β → Heap β × ℕ
  | 0, heap, id, _ => (heap, id)
  | fuel + 1, heap, id, items =>
    if items.drop size = [] then (update heap id (some ⟨0, items.take size⟩), id + 1)
    else write size fuel (update heap id (some ⟨id + 1, items.take size⟩)) (id + 1)
      (items.drop size)

/-- Reads up to `count` items from the chain at `id`. Returns what was read,
how many items are missing and the cell after the last one read. -/
def read (size : ℕ) (heap : Heap β) : ℕ → ℕ → ℕ → List β × ℕ × ℕ
  | 0, count, id => ([], count, id)
  | fuel + 1, count, id =>
    if count = 0 ∨ id = 0 then ([], count, id)
    else match heap id with
      | none => ([], count, id)
      | some chunk =>
        let here := min count size
        let rest := read size heap fuel (count - here) chunk.next
        (chunk.items.take here ++ rest.1, rest.2)

/-- Frees the chain at `id`. -/
def free : ℕ → Heap β → ℕ → Option (Heap β)
  | 0, heap, id => if id = 0 then some heap else none
  | fuel + 1, heap, id =>
    if id = 0 then some heap
    else match heap id with
      | none => none
      | some chunk => free fuel (update heap id none) chunk.next

/-- The cells of the chain at `id`. -/
def cells (heap : Heap β) : ℕ → ℕ → List ℕ
  | 0, _ => []
  | fuel + 1, id =>
    if id = 0 then []
    else id :: match heap id with
      | none => []
      | some chunk => cells heap fuel chunk.next

/-- Follows the chain at `id` when the cell number `n` cannot be read if `fails n`.
Returns the cells that were read, and whether the end was reached. -/
def followFailing (fails : ℕ → Bool) (heap : Heap β) : ℕ → ℕ → ℕ → List ℕ × Bool
  | 0, _, id => ([], decide (id = 0))
  | fuel + 1, n, id =>
    if id = 0 then ([], true)
    else if fails n then ([], false)
    else match heap id with
      | none => ([], false)
      | some chunk =>
        let rest := followFailing fails heap fuel (n + 1) chunk.next
        (id :: rest.1, rest.2)

/-- The given cells are a chain from `id` that holds the sequence. -/
def Holds (size : ℕ) (heap : Heap β) : List ℕ → ℕ → List β → Prop
  | [], id, items => id = 0 ∧ items = []
  | cell :: rest, id, items =>
    id = cell ∧ cell ≠ 0 ∧ items ≠ [] ∧
      ∃ next, heap cell = some ⟨next, items.take size⟩ ∧
        Holds size heap rest next (items.drop size)

variable {size : ℕ} {heap heap' : Heap β} {ids : List ℕ} {id fuel : ℕ} {items : List β}

section

variable (held : Holds size heap ids id items)

include held

/-- A chain is untouched by changes to other cells. -/
theorem Holds.congr
    (agree : ∀ cell ∈ ids, heap' cell = heap cell) : Holds size heap' ids id items := by
  induction ids generalizing id items with
  | nil => exact held
  | cons cell rest ih =>
    obtain ⟨first, nonzero, nonempty, next, stored, tail⟩ := held
    refine ⟨first, nonzero, nonempty, next, ?_, ih tail fun c mem => agree c (.tail _ mem)⟩
    rw [agree cell (.head _), stored]

theorem Holds.length_le (positive : 0 < size) : ids.length ≤ items.length := by
  induction ids generalizing id items with
  | nil => exact Nat.zero_le _
  | cons cell rest ih =>
    obtain ⟨-, -, nonempty, next, -, tail⟩ := held
    have bound := ih tail
    have := length_pos_iff.mpr nonempty
    rw [length_drop] at bound
    rw [length_cons]
    omega

/-- How many cells a sequence takes. -/
theorem Holds.lt_length_iff (n : ℕ) : n < ids.length ↔ n * size < items.length := by
  induction ids generalizing id items n with
  | nil =>
    obtain ⟨-, rfl⟩ := held
    simp
  | cons cell rest ih =>
    obtain ⟨-, -, nonempty, next, -, tail⟩ := held
    have positive := length_pos_iff.mpr nonempty
    cases n with
    | zero => simp [positive]
    | succ n =>
      have following := ih tail n
      rw [length_drop] at following
      rw [length_cons, Nat.succ_mul]
      omega

/-- A held chain is found again by following it. -/
theorem Holds.cells_eq (enough : ids.length ≤ fuel) : cells heap fuel id = ids := by
  induction ids generalizing id items fuel with
  | nil =>
    obtain ⟨rfl, -⟩ := held
    cases fuel <;> simp [cells]
  | cons cell rest ih =>
    obtain ⟨rfl, nonzero, -, next, stored, tail⟩ := held
    cases fuel with
    | zero => simp at enough
    | succ fuel =>
      have following := ih tail (Nat.le_of_succ_le_succ enough)
      simp [cells, nonzero, stored, following]

/-- A held chain reads back as the sequence it holds. -/
theorem Holds.read_eq (positive : 0 < size)
    (enough : items.length ≤ fuel) : read size heap fuel items.length id = (items, 0, 0) := by
  induction ids generalizing id items fuel with
  | nil =>
    obtain ⟨rfl, rfl⟩ := held
    cases fuel <;> simp [read]
  | cons cell rest ih =>
    obtain ⟨rfl, nonzero, nonempty, next, stored, tail⟩ := held
    have count := length_pos_iff.mpr nonempty
    cases fuel with
    | zero => omega
    | succ fuel =>
      have shorter : (items.drop size).length ≤ fuel := by
        rw [length_drop]
        omega
      have following := ih tail shorter
      have left : items.length - min items.length size = (items.drop size).length := by
        rw [length_drop]
        omega
      have whole : (items.take size).take (min items.length size) = items.take size :=
        take_of_length_le (by rw [length_take]; omega)
      have positive : items.length ≠ 0 := Nat.ne_of_gt count
      simp only [read, positive, nonzero, or_self, if_false, stored, left, following, whole,
        take_append_drop]

end

/-- A complete reading is the same where there are more cells. -/
theorem read_extends (size : ℕ) {count : ℕ}
    (more : ∀ cell, heap cell ≠ none → heap' cell = heap cell)
    (complete : (read size heap fuel count id).2.1 = 0) :
    read size heap' fuel count id = read size heap fuel count id := by
  induction fuel generalizing count id with
  | zero => rfl
  | succ fuel ih =>
    unfold read at complete ⊢
    split_ifs at complete ⊢ with ended
    · rfl
    · cases stored : heap id with
      | none =>
        rw [stored] at complete
        exact absurd (.inl complete) ended
      | some chunk =>
        rw [stored] at complete
        rw [more id (by rw [stored]; exact Option.some_ne_none chunk), stored]
        simp only at complete ⊢
        rw [ih complete]

/-- Nothing is read from a cell that is not there. -/
theorem read_of_none (size : ℕ) {count : ℕ} (gone : heap id = none) :
    read size heap fuel count id = ([], count, id) := by
  cases fuel with
  | zero => rfl
  | succ fuel => simp [read, gone]

/-- Freeing a held chain empties its cells and no others. -/
theorem Holds.free_eq (held : Holds size heap ids id items) (distinct : ids.Nodup)
    (enough : ids.length ≤ fuel) :
    free fuel heap id = some fun cell => if cell ∈ ids then none else heap cell := by
  induction ids generalizing heap id items fuel with
  | nil =>
    obtain ⟨rfl, -⟩ := held
    cases fuel <;> simp [free]
  | cons cell rest ih =>
    obtain ⟨rfl, nonzero, -, next, stored, tail⟩ := held
    obtain ⟨apart, distinctRest⟩ := nodup_cons.mp distinct
    cases fuel with
    | zero => simp at enough
    | succ fuel =>
      have untouched : Holds size (update heap id none) rest next (items.drop size) := by
        refine tail.congr fun c mem => update_of_ne ?_ _ _
        rintro rfl
        exact apart mem
      have freed := ih untouched distinctRest (Nat.le_of_succ_le_succ enough)
      simp only [free, nonzero, if_false, stored, freed, Option.some.injEq]
      funext c
      by_cases same : c = id
      · simp [same]
      · simp [same]

theorem le_write (size fuel : ℕ) (heap : Heap β) (id : ℕ) (items : List β) :
    id ≤ (write size fuel heap id items).2 := by
  induction fuel generalizing heap id items with
  | zero => exact Nat.le_refl id
  | succ fuel ih =>
    unfold write
    split_ifs
    · exact Nat.le_succ id
    · exact Nat.le_trans (Nat.le_succ id) (ih _ _ _)

/-- Writing uses consecutive cells, leaves the others alone, and the chain
written holds the sequence. -/
theorem write_holds (heap : Heap β) (id : ℕ) (items : List β) (nonzero : id ≠ 0)
    (nonempty : items ≠ []) (positive : 0 < size) (enough : items.length ≤ fuel) :
    ∃ count, (write size fuel heap id items).2 = id + count ∧
      Holds size (write size fuel heap id items).1 (range' id count) id items ∧
      ∀ cell, cell < id ∨ id + count ≤ cell → (write size fuel heap id items).1 cell = heap cell := by
  induction fuel generalizing heap id items with
  | zero => exact absurd (length_eq_zero_iff.mp (Nat.le_zero.mp enough)) nonempty
  | succ fuel ih =>
    unfold write
    split_ifs with last
    · refine ⟨1, rfl, ?_, ?_⟩
      · exact ⟨rfl, nonzero, nonempty, 0, by simp, rfl, last⟩
      · intro cell outside
        exact update_of_ne (by omega) _ _
    · have shorter : (items.drop size).length ≤ fuel := by
        rw [length_drop]
        omega
      obtain ⟨more, used, held, others⟩ := ih
        (update heap id (some ⟨id + 1, items.take size⟩)) (id + 1) (items.drop size)
        (Nat.succ_ne_zero id) last shorter
      refine ⟨more + 1, ?_, ?_, ?_⟩
      · rw [used]
        omega
      · rw [range'_succ]
        refine ⟨rfl, nonzero, nonempty, id + 1, ?_, held⟩
        rw [others id (by omega), update_self]
      · intro cell outside
        rw [others cell (by omega), update_of_ne (by omega)]

/-! ## Failures -/

variable {fails : ℕ → Bool}

/-- A held chain is followed up to the first cell that fails. -/
theorem Holds.followFailing_eq (held : Holds size heap ids id items) {n k : ℕ}
    (enough : ids.length ≤ fuel) (before : ∀ i < k, fails (n + i) = false)
    (strikes : k < ids.length → fails (n + k) = true) :
    followFailing fails heap fuel n id = (ids.take k, decide (ids.length ≤ k)) := by
  induction ids generalizing id items fuel n k with
  | nil =>
    obtain ⟨rfl, -⟩ := held
    cases fuel <;> simp [followFailing]
  | cons cell rest ih =>
    obtain ⟨rfl, nonzero, -, next, stored, tail⟩ := held
    cases fuel with
    | zero => simp at enough
    | succ fuel =>
      cases k with
      | zero =>
        have now : fails n = true := strikes (Nat.succ_pos _)
        simp [followFailing, nonzero, now]
      | succ k =>
        have now : fails n = false := before 0 (Nat.succ_pos k)
        have following := ih tail (n := n + 1) (k := k) (Nat.le_of_succ_le_succ enough)
          (fun i less => by
            have later := before (i + 1) (Nat.succ_lt_succ less)
            rwa [Nat.add_right_comm, Nat.add_assoc])
          (fun less => by
            have later := strikes (Nat.succ_lt_succ less)
            rwa [Nat.add_right_comm, Nat.add_assoc])
        simp [followFailing, nonzero, now, stored, following]

end Zetascale.ChunkChain
