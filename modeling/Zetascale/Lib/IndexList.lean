import Mathlib

/-!
# Linked lists in an array

Singly linked lists whose cells are array indices. A link is the index of a
cell plus one, and 0 is the end. Each list starts at a place: a bucket of a hash
table, the head of a free list. `IndexLists start next cells` says that the list
at every place holds the given cells, and that no cell is in two lists or twice
in one.
-/

namespace Zetascale

open Function List

universe u

section

variable {next next' : ℕ → ℕ} {start : ℕ} {cells : List ℕ}

/-- The links from `start` on lead through these cells to the end. -/
def Chained (next : ℕ → ℕ) : ℕ → List ℕ → Prop
  | start, [] => start = 0
  | start, cell :: rest => start = cell + 1 ∧ Chained next (next cell) rest

@[simp] theorem chained_nil : Chained next start [] ↔ start = 0 := Iff.rfl

@[simp] theorem chained_cons {cell : ℕ} {rest : List ℕ} :
    Chained next start (cell :: rest) ↔ start = cell + 1 ∧ Chained next (next cell) rest := Iff.rfl

/-- Only the links of the cells themselves matter. -/
theorem Chained.congr (chained : Chained next start cells)
    (agree : ∀ cell ∈ cells, next' cell = next cell) : Chained next' start cells := by
  induction cells generalizing start with
  | nil => exact chained
  | cons cell rest ih =>
    refine ⟨chained.1, ?_⟩
    rw [agree cell mem_cons_self]
    exact ih chained.2 fun other mem => agree other (mem_cons_of_mem _ mem)

theorem Chained.eq_nil (chained : Chained next 0 cells) : cells = [] := by
  cases cells with
  | nil => rfl
  | cons cell rest => exact (Nat.succ_ne_zero cell chained.1.symm).elim

theorem Chained.exists_cons (chained : Chained next start cells) (some : start ≠ 0) :
    ∃ rest, cells = (start - 1) :: rest := by
  cases cells with
  | nil => exact (some chained).elim
  | cons cell rest =>
    obtain ⟨rfl, _⟩ := chained
    exact ⟨rest, rfl⟩

/-- The links determine the cells. -/
theorem Chained.unique {cells' : List ℕ} (chained : Chained next start cells)
    (chained' : Chained next start cells') : cells = cells' := by
  induction cells generalizing start cells' with
  | nil =>
    rw [chained_nil.mp chained] at chained'
    exact chained'.eq_nil.symm
  | cons cell rest ih =>
    obtain ⟨rfl, chained⟩ := chained
    obtain ⟨rest', rfl⟩ := chained'.exists_cons (Nat.succ_ne_zero cell)
    rw [Nat.add_sub_cancel] at chained' ⊢
    rw [ih chained chained'.2]

end

variable {P : Type u} {start : P → ℕ} {next : ℕ → ℕ} {cells : P → List ℕ}

/-- Disjoint lists, one at each place. -/
structure IndexLists (start : P → ℕ) (next : ℕ → ℕ) (cells : P → List ℕ) : Prop where
  chained : ∀ p, Chained next (start p) (cells p)
  nodup : ∀ p, (cells p).Nodup
  only : ∀ {p q i}, i ∈ cells p → i ∈ cells q → p = q

namespace IndexLists

theorem exists_cons (lists : IndexLists start next cells) {p : P} (some : start p ≠ 0) :
    ∃ rest, cells p = (start p - 1) :: rest := (lists.chained p).exists_cons some

variable [DecidableEq P]

theorem mem_update {p q : P} {i : ℕ} {l : List ℕ} :
    i ∈ update cells p l q ↔ (q = p ∧ i ∈ l) ∨ (q ≠ p ∧ i ∈ cells q) := by
  by_cases same : q = p
  · subst same
    simp
  · simp [same]

/-- Put a cell that is in no list at the head of one. -/
theorem push (lists : IndexLists start next cells) (p : P) {i : ℕ} (fresh : ∀ q, i ∉ cells q) :
    IndexLists (update start p (i + 1)) (update next i (start p))
      (update cells p (i :: cells p)) where
  chained q := by
    have others : ∀ cell ∈ cells q, update next i (start p) cell = next cell :=
      fun cell mem => update_of_ne (fun same => fresh q (by rwa [same] at mem)) _ _
    by_cases same : q = p
    · subst same
      simp only [update_self]
      refine ⟨rfl, ?_⟩
      rw [update_self]
      exact (lists.chained q).congr others
    · rw [update_of_ne same, update_of_ne same]
      exact (lists.chained q).congr others
  nodup := (forall_update_iff cells fun _ => Nodup).mpr
    ⟨nodup_cons.mpr ⟨fresh p, lists.nodup p⟩, fun q _ => lists.nodup q⟩
  only {q q' j} mem mem' := by
    have origin : ∀ {r}, j ∈ update cells p (i :: cells p) r →
        (j = i ∧ r = p) ∨ (j ≠ i ∧ j ∈ cells r) := by
      intro r inside
      rw [mem_update, mem_cons] at inside
      rcases inside with ⟨rfl, rfl | old⟩ | ⟨ne, old⟩
      · exact .inl ⟨rfl, rfl⟩
      · exact .inr ⟨fun same => fresh _ (same ▸ old), old⟩
      · exact .inr ⟨fun same => fresh _ (same ▸ old), old⟩
    rcases origin mem with ⟨new, rfl⟩ | ⟨old, inside⟩
    · exact (origin mem').elim (fun here => here.2.symm) fun there => (there.1 new).elim
    · exact (origin mem').elim (fun here => (old here.1).elim) fun there => lists.only inside there.2

/-- Take the cell at the head of a list out of it. -/
theorem pop (lists : IndexLists start next cells) {p : P} {i : ℕ} {rest : List ℕ}
    (head : cells p = i :: rest) : IndexLists (update start p (next i)) next (update cells p rest) ∧
      ∀ q, i ∉ update cells p rest q := by
  have linked := lists.chained p
  rw [head] at linked
  have distinct := lists.nodup p
  rw [head, nodup_cons] at distinct
  have mem : i ∈ cells p := head ▸ mem_cons_self
  have sub : ∀ {q j}, j ∈ update cells p rest q → j ∈ cells q := by
    intro q j inside
    rw [mem_update] at inside
    rcases inside with ⟨rfl, inRest⟩ | ⟨_, other⟩
    · exact head ▸ mem_cons_of_mem _ inRest
    · exact other
  refine ⟨⟨fun q => ?_, fun q => ?_, fun here there => lists.only (sub here) (sub there)⟩, ?_⟩
  · by_cases same : q = p
    · subst same
      simpa only [update_self] using linked.2
    · simpa only [update_of_ne same] using lists.chained q
  · exact (forall_update_iff cells fun _ => Nodup).mpr ⟨distinct.2, fun q _ => lists.nodup q⟩ q
  · intro q inside
    rw [mem_update] at inside
    rcases inside with ⟨rfl, inRest⟩ | ⟨ne, other⟩
    · exact distinct.1 inRest
    · exact ne (lists.only other mem)

/-- Move the cell at the head of a list to the head of another one. -/
theorem move (lists : IndexLists start next cells) {p q : P} (apart : q ≠ p) {i : ℕ}
    {rest : List ℕ} (head : cells p = i :: rest) :
    IndexLists (update (update start p (next i)) q (i + 1)) (update next i (start q))
      (update (update cells p rest) q (i :: cells q)) := by
  obtain ⟨popped, fresh⟩ := lists.pop head
  have pushed := popped.push q fresh
  rwa [update_of_ne apart, update_of_ne apart] at pushed

/-- A move leaves every cell in some list. -/
theorem mem_move {p q : P} (apart : q ≠ p) {i j : ℕ} {rest : List ℕ} (head : cells p = i :: rest) :
    (∃ r, j ∈ update (update cells p rest) q (i :: cells q) r) ↔ ∃ r, j ∈ cells r := by
  constructor
  · rintro ⟨r, inside⟩
    rw [mem_update, mem_update, mem_cons] at inside
    rcases inside with ⟨_, rfl | old⟩ | ⟨_, ⟨_, old⟩ | ⟨_, old⟩⟩
    · exact ⟨p, head ▸ mem_cons_self⟩
    · exact ⟨q, old⟩
    · exact ⟨p, head ▸ mem_cons_of_mem _ old⟩
    · exact ⟨r, old⟩
  · rintro ⟨r, inside⟩
    by_cases toQ : r = q
    · subst toQ
      exact ⟨r, by rw [update_self]; exact mem_cons_of_mem _ inside⟩
    · by_cases fromP : r = p
      · subst fromP
        rw [head, mem_cons] at inside
        rcases inside with rfl | old
        · exact ⟨q, by rw [update_self]; exact mem_cons_self⟩
        · exact ⟨r, by rwa [update_of_ne toQ, update_self]⟩
      · exact ⟨r, by rwa [update_of_ne toQ, update_of_ne fromP]⟩

end IndexLists

end Zetascale
