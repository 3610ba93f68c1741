import Mathlib

/-!
# Levels of a search tree

A search tree whose leaves all have one depth, read level by level. A level is
a list of slots from left to right; a slot is a node's id with the upper bound
of the keys under it. The lower bound of a slot is the upper bound of the slot
before it. The children of a slot are slots too, the last of them with the
upper bound of the parent. A change of the tree is then a change of a few
adjacent slots of a few levels.
-/

namespace Zetascale

open List

universe u

/-- A node under an upper bound. -/
@[ext]
structure Slot (P : Type u) where
  id : ℕ
  hi : WithTop P
  deriving DecidableEq

variable {P : Type u} {children : Slot P → List (Slot P)} {top pre post : List (Slot P)} {d : ℕ}
  {s : Slot P}

section

/-- The slots at a depth below the given ones. -/
def level (children : Slot P → List (Slot P)) (top : List (Slot P)) : ℕ → List (Slot P)
  | 0 => top
  | d + 1 => (level children top d).flatMap children

variable {children' : Slot P → List (Slot P)} {top' : List (Slot P)}

@[simp] theorem level_zero : level children top 0 = top := rfl

theorem level_succ (d : ℕ) :
    level children top (d + 1) = (level children top d).flatMap children := rfl

/-- Levels only depend on the children of the slots above them. -/
theorem level_congr (agree : ∀ j < d, ∀ s ∈ level children top j, children' s = children s) :
    level children' top d = level children top d := by
  induction d with
  | zero => rfl
  | succ d ih =>
    have above := ih fun j lt => agree j (Nat.lt_succ_of_lt lt)
    rw [level_succ, level_succ, above, ← flatMap_congr fun s mem =>
      agree d (Nat.lt_succ_self d) s mem]

/-- Below a level that did not change, levels change only where children do. -/
theorem level_congr_from (same : level children' top' d = level children top d) {k : ℕ}
    (agree : ∀ j, d ≤ j → j < d + k → ∀ s ∈ level children top j, children' s = children s) :
    level children' top' (d + k) = level children top (d + k) := by
  induction k with
  | zero => exact same
  | succ k ih =>
    have above := ih fun j le lt => agree j le (Nat.lt_succ_of_lt lt)
    rw [← Nat.add_assoc, level_succ, level_succ, above, ← flatMap_congr fun s mem =>
      agree (d + k) (Nat.le_add_right d k) (Nat.lt_succ_self _) s mem]

/-- A new root over the old one moves every level down by one. -/
theorem level_push {root : Slot P} (only : children root = top) (d : ℕ) :
    level children [root] (d + 1) = level children top d := by
  induction d with
  | zero => simp [level_succ, only]
  | succ d ih => rw [level_succ, ih, level_succ]

/-- The children of one slot, within their level. -/
theorem flatMap_split {f : Slot P → List (Slot P)} {l : List (Slot P)}
    (cut : l = pre ++ s :: post) : l.flatMap f = pre.flatMap f ++ (f s ++ post.flatMap f) := by
  rw [cut, flatMap_append, flatMap_cons]

end

section

variable [LinearOrder P]

/-- Strictly ascending upper bounds. -/
def Ascending (l : List (Slot P)) : Prop := l.Pairwise fun a b => a.hi < b.hi

/-- The last child of a slot has the slot's own bound. -/
def ClosedUnder (children : Slot P → List (Slot P)) (s : Slot P) : Prop :=
  ∃ front last, children s = front ++ [⟨last, s.hi⟩]

variable {l : List (Slot P)}

omit [LinearOrder P] in
/-- The bounds of a level are among those of the next one. -/
theorem map_hi_sublist (closed : ∀ s ∈ l, ClosedUnder children s) :
    (l.map Slot.hi).Sublist ((l.flatMap children).map Slot.hi) := by
  induction l with
  | nil => exact List.Sublist.refl _
  | cons s l ih =>
    obtain ⟨front, last, eq⟩ := closed s mem_cons_self
    have rest := ih fun x mem => closed x (mem_cons_of_mem s mem)
    rw [flatMap_cons, map_cons, map_append, eq, map_append, append_assoc]
    exact (List.Sublist.cons_cons s.hi rest).trans (sublist_append_right _ _)

theorem Ascending.of_next (closed : ∀ s ∈ l, ClosedUnder children s)
    (ascending : Ascending (l.flatMap children)) : Ascending l := by
  have bounds : ((l.flatMap children).map Slot.hi).Pairwise (· < ·) :=
    pairwise_map.mpr ascending
  exact pairwise_map.mp (bounds.sublist (map_hi_sublist closed))

/-- Bounds that ascend at some depth ascend at every depth above it. -/
theorem Ascending.of_level {k : ℕ}
    (closed : ∀ j < d + k, ∀ s ∈ level children top j, ClosedUnder children s)
    (ascending : Ascending (level children top (d + k))) : Ascending (level children top d) := by
  induction k with
  | zero => exact ascending
  | succ k ih =>
    apply ih fun j lt => closed j (Nat.lt_succ_of_lt lt)
    exact .of_next (closed (d + k) (Nat.lt_succ_self _)) ascending

variable {c : Slot P}

/-- No child lies above its parent's bound. -/
theorem Ascending.child_le (ascending : Ascending (l.flatMap children))
    (closed : ∀ s ∈ l, ClosedUnder children s) (mem : s ∈ l) (child : c ∈ children s) :
    c.hi ≤ s.hi := by
  obtain ⟨front, last, eq⟩ := closed s mem
  have here : Ascending (children s) := by
    obtain ⟨pre, post, rfl⟩ := append_of_mem mem
    rw [flatMap_split rfl] at ascending
    exact (pairwise_append.mp (pairwise_append.mp ascending).2.1).1
  rw [eq] at here child
  rcases mem_append.mp child with inFront | isLast
  · exact ((pairwise_append.mp here).2.2 c inFront _ (mem_singleton.mpr rfl)).le
  · rw [mem_singleton.mp isLast]

/-- The children of a slot lie above the bounds of the slots before it. -/
theorem Ascending.before_children (ascending : Ascending (l.flatMap children))
    (closed : ∀ s ∈ l, ClosedUnder children s) (cut : l = pre ++ s :: post) {x : Slot P}
    (before : x ∈ pre) (child : c ∈ children s) : x.hi < c.hi := by
  have xMem : x ∈ l := by
    rw [cut]
    exact mem_append_left _ before
  obtain ⟨front, last, eq⟩ := closed x xMem
  rw [flatMap_split cut] at ascending
  have apart := (pairwise_append.mp ascending).2.2
  refine apart ⟨last, x.hi⟩ ?_ c (mem_append_left _ child)
  rw [mem_flatMap]
  exact ⟨x, before, by simp [eq]⟩

/-- The slot whose keys include a place: the first one whose bound is not
before it. -/
def Covers (l : List (Slot P)) (q : P) (s : Slot P) : Prop :=
  ∃ pre post, l = pre ++ s :: post ∧ (∀ x ∈ pre, x.hi < q) ∧ q ≤ s.hi

variable {q : P}

theorem Covers.mem (covers : Covers l q s) : s ∈ l := by
  obtain ⟨pre, post, rfl, -, -⟩ := covers
  simp

theorem Covers.upto (covers : Covers l q s) : (q : WithTop P) ≤ s.hi := by
  obtain ⟨_, _, _, _, upto⟩ := covers
  exact upto

/-- Slots before the covering one lie before the place. -/
theorem Covers.before (covers : Covers l q s) (ascending : Ascending l) {x : Slot P}
    (mem : x ∈ l) (less : x.hi < s.hi) : x.hi < q := by
  obtain ⟨pre, post, rfl, before, -⟩ := covers
  rw [mem_append, mem_cons] at mem
  rcases mem with inPre | rfl | inPost
  · exact before x inPre
  · exact absurd less (lt_irrefl _)
  · have more := (pairwise_cons.mp (pairwise_append.mp ascending).2.1).1 x inPost
    exact absurd less (not_lt.mpr more.le)

/-- The slot is in the level, and all slots before it have bounds with a
property. -/
def PrecededBy (p : WithTop P → Prop) (l : List (Slot P)) (s : Slot P) : Prop :=
  ∃ pre post, l = pre ++ s :: post ∧ ∀ x ∈ pre, p x.hi

/-- From a slot to one of its children, for a property that smaller bounds
inherit. -/
theorem PrecededBy.child {p : WithTop P → Prop}
    (inherits : ∀ {a b}, a ≤ b → p b → p a) (preceded : PrecededBy p l s)
    (ascending : Ascending (l.flatMap children)) (closed : ∀ s ∈ l, ClosedUnder children s)
    (child : PrecededBy p (children s) c) : PrecededBy p (l.flatMap children) c := by
  obtain ⟨pre, post, cut, before⟩ := preceded
  obtain ⟨front, back, eq, beforeChild⟩ := child
  refine ⟨pre.flatMap children ++ front, back ++ post.flatMap children, ?_, ?_⟩
  · rw [flatMap_split cut, eq]
    simp
  · intro x mem
    rcases mem_append.mp mem with inPre | inFront
    · obtain ⟨y, yMem, xChild⟩ := mem_flatMap.mp inPre
      have yIn : y ∈ l := by
        rw [cut]
        exact mem_append_left _ yMem
      exact inherits (ascending.child_le closed yIn xChild) (before y yMem)
    · exact beforeChild x inFront

/-- The covering slot of the next level is among the children of the covering
slot of this one. -/
theorem Covers.child (covers : Covers l q s)
    (ascending : Ascending (l.flatMap children)) (closed : ∀ s ∈ l, ClosedUnder children s)
    (child : Covers (children s) q c) : Covers (l.flatMap children) q c := by
  obtain ⟨pre, post, cut, before, -⟩ := covers
  obtain ⟨front, back, eq, beforeChild, upto⟩ := child
  have preceded : PrecededBy (· < (q : WithTop P)) l s := ⟨pre, post, cut, before⟩
  obtain ⟨pre', post', cut', before'⟩ := preceded.child (fun le lt => le.trans_lt lt) ascending closed
    ⟨front, back, eq, beforeChild⟩
  exact ⟨pre', post', cut', before', upto⟩

/-- There is only one covering slot. -/
theorem Covers.unique {s' : Slot P} (covers : Covers l q s) (covers' : Covers l q s') : s = s' := by
  obtain ⟨pre, post, rfl, before, upto⟩ := covers
  obtain ⟨pre', post', eq, before', upto'⟩ := covers'
  rcases append_eq_append_iff.mp eq with ⟨mid, rfl, tail⟩ | ⟨mid, rfl, tail⟩
  · cases mid with
    | nil => exact (cons.inj tail).1
    | cons x mid =>
      obtain ⟨rfl, -⟩ := cons.inj tail
      exact absurd (before' s (by simp)) (not_lt.mpr upto)
  · cases mid with
    | nil => exact (cons.inj tail).1.symm
    | cons x mid =>
      obtain ⟨rfl, -⟩ := cons.inj tail
      exact absurd (before s' (by simp)) (not_lt.mpr upto')

end

/-! ## Linked levels -/

/-- The ids are linked through `next`, and the last one points to `stop`. -/
def Linked (next : ℕ → ℕ) : List ℕ → ℕ → Prop
  | [], _ => True
  | a :: rest, stop => next a = rest.headD stop ∧ Linked next rest stop

variable {next next' : ℕ → ℕ} {l l' : List ℕ} {stop : ℕ}

theorem linked_append : Linked next (l ++ l') stop ↔
    Linked next l (l'.headD stop) ∧ Linked next l' stop := by
  induction l with
  | nil => simp [Linked]
  | cons a l ih =>
    rw [cons_append, Linked, Linked, ih]
    cases l <;> simp [and_assoc]

theorem Linked.congr (linked : Linked next l stop) (agree : ∀ a ∈ l, next' a = next a) :
    Linked next' l stop := by
  induction l with
  | nil => trivial
  | cons a l ih =>
    obtain ⟨first, rest⟩ := linked
    exact ⟨(agree a mem_cons_self).trans first,
      ih rest fun b mem => agree b (mem_cons_of_mem a mem)⟩

end Zetascale
