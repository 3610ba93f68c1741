import Zetascale.Lib.Levels
import Zetascale.Lib.Tiling
import Zetascale.Btree.Write

/-!
# The shape of the tree

A tree is read level by level: the slots at a depth are the nodes there from
left to right, each with the separator above its keys. `Shape` is the
invariant of the structure: leaves all at one depth, keys where the separators
put them, leaves chained from left to right, and every node of the store in
exactly one slot.
-/

namespace Zetascale.Btree

open List

variable {κ : Type}

/-! ## Reading the levels -/

/-- The children of a node under an upper bound. -/
def Node.slots (n : Node κ) (hi : WithTop (Pos κ)) : List (Slot (Pos κ)) :=
  match n with
  | .leaf .. => []
  | .nonleaf _ _ keys rightmost =>
    keys.map (fun s => ⟨s.ptr, (s.pos : WithTop (Pos κ))⟩) ++ [⟨rightmost, hi⟩]

open Node

/-- A node at this height above the leaves. -/
def Node.HasLevel (n : Node κ) (k : ℕ) : Prop :=
  match n with
  | .leaf .. => k = 0
  | .nonleaf level .. => level = k ∧ k ≠ 0

/-- The children of a slot in a store of nodes. -/
def childSlots (nodes : ℕ → Option (Node κ)) (s : Slot (Pos κ)) : List (Slot (Pos κ)) :=
  match nodes s.id with
  | some n => n.slots s.hi
  | none => []

/-- The entries of a leaf. -/
def entriesOf (nodes : ℕ → Option (Node κ)) (id : ℕ) : List (Entry κ) :=
  match nodes id with
  | some (.leaf _ entries) => entries
  | _ => []

/-- The leaf after a leaf. -/
def nextOf (nodes : ℕ → Option (Node κ)) (id : ℕ) : ℕ :=
  match nodes id with
  | some (.leaf next _) => next
  | _ => BAD_CHILD

namespace Tree

/-- The slots at a depth. -/
def level (t : Tree κ) (d : ℕ) : List (Slot (Pos κ)) :=
  Zetascale.level (childSlots t.nodes) [⟨t.rootid, ⊤⟩] d

/-- A leaf as a cell of the tree's order. -/
def cell (t : Tree κ) (s : Slot (Pos κ)) : Cell (Pos κ) (Entry κ) := ⟨s.hi, entriesOf t.nodes s.id⟩

/-- The entries of the tree in order, for leaves at depth `h`. -/
def contents (t : Tree κ) (h : ℕ) : List (Entry κ) :=
  (t.level h).flatMap fun s => entriesOf t.nodes s.id

theorem level_succ (t : Tree κ) (d : ℕ) :
    t.level (d + 1) = (t.level d).flatMap (childSlots t.nodes) := rfl

@[simp] theorem level_zero (t : Tree κ) : t.level 0 = [⟨t.rootid, ⊤⟩] := rfl

theorem flatMap_cell (t : Tree κ) (l : List (Slot (Pos κ))) :
    (l.map t.cell).flatMap Cell.items = l.flatMap fun s => entriesOf t.nodes s.id := by
  rw [flatMap_map]
  rfl

end Tree

/-- The structural invariant of a tree whose leaves are at depth `h`. -/
structure Shape [LinearOrder κ] (t : Tree κ) (h : ℕ) : Prop where
  /-- Every slot has a node of the right kind. -/
  kinds : ∀ d ≤ h, ∀ s ∈ t.level d, ∃ n, t.nodes s.id = some n ∧ n.HasLevel (h - d)
  /-- No node is in two slots of a level. -/
  nodup : ∀ d ≤ h, ((t.level d).map Slot.id).Nodup
  /-- Every node of the store is in a slot. -/
  reached : ∀ id, t.nodes id ≠ none → ∃ d ≤ h, ∃ s ∈ t.level d, s.id = id
  /-- Ids in use are below the counter. -/
  ids : ∀ id, t.nodes id ≠ none → id ≠ BAD_CHILD ∧ id < t.logical_id_counter
  /-- The entries lie between the separators around their leaf. -/
  tiled : Tiled Entry.pos ⊥ ((t.level h).map t.cell)
  /-- The leaves are chained from left to right. -/
  linked : Linked (nextOf t.nodes) ((t.level h).map Slot.id) BAD_CHILD

variable {t : Tree κ} {h d level next rightmost : ℕ} {s : Slot (Pos κ)} {keys : List (Sep κ)}

namespace Shape

variable [LinearOrder κ]

section

variable (shape : Shape t h)

include shape

theorem leaf (mem : s ∈ t.level h) : ∃ next entries, t.nodes s.id = some (.leaf next entries) := by
  obtain ⟨n, stored, kind⟩ := shape.kinds h le_rfl s mem
  cases n with
  | leaf next entries => exact ⟨next, entries, stored⟩
  | nonleaf level next keys rightmost =>
    obtain ⟨-, positive⟩ := kind
    omega

theorem nonleaf (lt : d < h) (mem : s ∈ t.level d) :
    ∃ next keys rightmost, t.nodes s.id = some (.nonleaf (h - d) next keys rightmost) := by
  obtain ⟨n, stored, kind⟩ := shape.kinds d lt.le s mem
  cases n with
  | leaf next entries =>
    have zero : h - d = 0 := kind
    omega
  | nonleaf level next keys rightmost =>
    obtain ⟨rfl, -⟩ := kind
    exact ⟨next, keys, rightmost, stored⟩

theorem depth_unique {d' : ℕ} (le : d ≤ h) (le' : d' ≤ h) {s' : Slot (Pos κ)}
    (mem : s ∈ t.level d) (mem' : s' ∈ t.level d') (same : s.id = s'.id) : d = d' := by
  obtain ⟨n, stored, kind⟩ := shape.kinds d le s mem
  obtain ⟨n', stored', kind'⟩ := shape.kinds d' le' s' mem'
  rw [same, stored'] at stored
  obtain rfl := Option.some.inj stored
  cases n' with
  | leaf next entries =>
    have zero : h - d = 0 := kind
    have zero' : h - d' = 0 := kind'
    omega
  | nonleaf level next keys rightmost =>
    obtain ⟨rfl, positive⟩ := kind
    obtain ⟨same', -⟩ := kind'
    omega

variable {pre post : List (Slot (Pos κ))}

theorem beside (le : d ≤ h) {x : Slot (Pos κ)}
    (cut : t.level d = pre ++ s :: post) (mem : x ∈ pre ++ post) : x ∈ t.level d ∧ x.id ≠ s.id := by
  have distinct := shape.nodup d le
  rw [cut, map_append, map_cons, nodup_middle, nodup_cons, ← map_append] at distinct
  refine ⟨?_, fun same => distinct.1 (same ▸ mem_map_of_mem mem)⟩
  rw [cut]
  exact ((sublist_cons_self s post).append_left pre).mem mem

/-- The entries before a leaf, in it and behind it. -/
theorem tiled_cut (cut : t.level h = pre ++ s :: post) : Tiled Entry.pos ⊥ (pre.map t.cell) ∧
      Tiled Entry.pos (endOf ⊥ (pre.map t.cell)) (t.cell s :: post.map t.cell) := by
  have tiled := shape.tiled
  rwa [cut, map_append, map_cons, tiled_append] at tiled

/-- Entries of a leaf are not above its bound. -/
theorem upto_hi (mem : s ∈ t.level h) {x : Entry κ}
    (here : x ∈ entriesOf t.nodes s.id) : (x.pos : WithTop (Pos κ)) ≤ s.hi := by
  obtain ⟨pre, post, cut⟩ := append_of_mem mem
  exact (shape.tiled_cut cut).2.2.1.below x here

/-- Entries behind a leaf are above its bound. -/
theorem beyond_hi (cut : t.level h = pre ++ s :: post) {x : Entry κ}
    (mem : x ∈ post.flatMap fun y => entriesOf t.nodes y.id) :
    s.hi < (x.pos : WithTop (Pos κ)) := by
  rw [← Tree.flatMap_cell] at mem
  exact WithBot.coe_lt_coe.mp ((shape.tiled_cut cut).2.2.2.above mem)

theorem closed (lt : d < h) (mem : s ∈ t.level d) : ClosedUnder (childSlots t.nodes) s := by
  obtain ⟨next, keys, rightmost, stored⟩ := shape.nonleaf lt mem
  exact ⟨_, rightmost, by simp only [childSlots, stored, slots]; rfl⟩

theorem ascending (le : d ≤ h) : Ascending (t.level d) := by
  obtain ⟨k, rfl⟩ := Nat.exists_eq_add_of_le le
  have bounds := (Tiled.ascending shape.tiled).2
  have leaves : Ascending (t.level (d + k)) := (pairwise_map (f := t.cell)).mp bounds
  exact Ascending.of_level (fun j lt s mem => shape.closed lt mem) leaves

theorem children_ascending (lt : d < h)
    (mem : s ∈ t.level d) : Ascending (childSlots t.nodes s) := by
  have next := shape.ascending lt
  obtain ⟨pre, post, cut⟩ := append_of_mem mem
  rw [Tree.level_succ, flatMap_split cut] at next
  exact (pairwise_append.mp (pairwise_append.mp next).2.1).1

/-- The separators of a node, in order and below its bound. -/
theorem keys_sorted (lt : d < h) (mem : s ∈ t.level d)
    (stored : t.nodes s.id = some (.nonleaf level next keys rightmost)) :
    SortedBy Sep.pos keys ∧ ∀ k ∈ keys, (k.pos : WithTop (Pos κ)) < s.hi := by
  have ascending := shape.children_ascending lt mem
  simp only [childSlots, stored, slots] at ascending
  obtain ⟨front, -, below⟩ := pairwise_append.mp ascending
  constructor
  · exact (pairwise_map.mp front).imp fun lt => WithTop.coe_lt_coe.mp lt
  · intro k mem'
    exact below ⟨k.ptr, k.pos⟩ (mem_map.mpr ⟨k, mem', rfl⟩) ⟨rightmost, s.hi⟩
      (mem_singleton.mpr rfl)

end

end Shape

/-! ## Following a key -/

/-- The slot of the child at an index. -/
def slotAt (keys : List (Sep κ)) (rightmost : ℕ) (hi : WithTop (Pos κ)) (index : ℕ) :
    Slot (Pos κ) :=
  match keys[index]? with
  | some s => ⟨s.ptr, (s.pos : WithTop (Pos κ))⟩
  | none => ⟨rightmost, hi⟩

@[simp] theorem slotAt_id (keys : List (Sep κ)) (rightmost : ℕ) (hi : WithTop (Pos κ))
    (index : ℕ) : (slotAt keys rightmost hi index).id = childAt keys rightmost index := by
  unfold slotAt childAt
  cases keys[index]? <;> rfl

/-- The children of a node around one of them. -/
theorem slots_cut (level next rightmost : ℕ) (front back : List (Sep κ)) (hi : WithTop (Pos κ)) :
    (Node.nonleaf level next (front ++ back) rightmost).slots hi =
      front.map (fun s => ⟨s.ptr, (s.pos : WithTop (Pos κ))⟩) ++
        (Node.nonleaf level next back rightmost).slots hi := by
  simp [slots]

/-- The child that a search finds is the one that covers the place. -/
theorem covers_slotAt [LinearOrder κ]
    {hi : WithTop (Pos κ)} {q : Pos κ} (sorted : SortedBy Sep.pos keys) (upto : q ≤ hi) :
    Covers ((Node.nonleaf level next keys rightmost).slots hi) q
      (slotAt keys rightmost hi (cutIndex Sep.pos keys q)) := by
  obtain ⟨front, back, rfl, before, after, cut⟩ := sorted.exists_cut q
  rw [cut, slots_cut]
  have small : ∀ x ∈ front.map (fun s : Sep κ => (⟨s.ptr, (s.pos : WithTop (Pos κ))⟩ : Slot _)),
      x.hi < (q : WithTop (Pos κ)) := by
    intro x mem
    obtain ⟨s, sMem, rfl⟩ := mem_map.mp mem
    exact WithTop.coe_lt_coe.mpr (before s sMem)
  cases back with
  | nil => exact ⟨_, [], by simp [slotAt, slots], small, by simpa [slotAt] using upto⟩
  | cons s back =>
    refine ⟨_, _, by simp [slotAt, slots]; rfl, small, ?_⟩
    simpa [slotAt] using WithTop.coe_le_coe.mpr (after s mem_cons_self)

/-- The search for a child in a sorted node. -/
theorem bsearchKeyLow_seps [LinearOrder κ] (sorted : SortedBy Sep.pos keys)
    (smeta : SeqFilter) (key : κ) : (bsearchKeyLow (keys.map Sep.stuff) key smeta .latest).1 =
      cutIndex Sep.pos keys (smeta.place key) := by
  have located := bsearchKeyLow_locates ((sortedBy_map Sep.stuff keys).mpr sorted) smeta key
  exact located.index.symm.trans (cutIndex_map Sep.stuff keys _)

theorem findKeyNonLeaf_eq [LinearOrder κ] (sorted : SortedBy Sep.pos keys)
    {isRoot : Bool} (expected : keys ≠ [] ∨ isRoot = true) (smeta : SeqFilter) (key : κ) :
    findKeyNonLeaf keys isRoot key smeta = some (cutIndex Sep.pos keys (smeta.place key)) := by
  unfold findKeyNonLeaf
  split_ifs with empty root
  · subst empty
    rfl
  · rcases expected with nonempty | root'
    · exact absurd empty nonempty
    · exact absurd root' root
  · rw [bsearchKeyLow_seps sorted]

theorem covers_root [LinearOrder κ] (t : Tree κ) (q : Pos κ) :
    Covers (t.level 0) q ⟨t.rootid, ⊤⟩ := ⟨[], [], rfl, by simp, le_top⟩

namespace Shape

variable [LinearOrder κ]

theorem covers_child (shape : Shape t h) (lt : d < h) {q : Pos κ} (covers : Covers (t.level d) q s)
    (stored : t.nodes s.id = some (.nonleaf level next keys rightmost)) :
    Covers (t.level (d + 1)) q (slotAt keys rightmost s.hi (cutIndex Sep.pos keys q)) := by
  have mem := covers.mem
  have sorted := (shape.keys_sorted lt mem stored).1
  have upto : (q : WithTop (Pos κ)) ≤ s.hi := by
    obtain ⟨_, _, _, _, upto⟩ := covers
    exact upto
  apply covers.child (shape.ascending lt) fun x xMem => shape.closed lt xMem
  simp only [childSlots, stored]
  exact covers_slotAt sorted upto

theorem rootLevel_eq (shape : Shape t h) : t.rootLevel = h := by
  obtain ⟨n, stored, kind⟩ := shape.kinds 0 (Nat.zero_le h) ⟨t.rootid, ⊤⟩ (by simp)
  unfold Tree.rootLevel
  simp only [stored]
  cases n with
  | leaf next entries => exact (Eq.symm kind : 0 = h - 0)
  | nonleaf level next keys rightmost => exact kind.1

theorem findLeaf_covers (shape : Shape t h) (key : κ) (smeta : SeqFilter) {fuel : ℕ}
    (le : d ≤ h) (enough : h - d < fuel) (covers : Covers (t.level d) (smeta.place key) s) :
    ∃ leaf, findLeaf t key smeta fuel s.id = some leaf.id ∧
      Covers (t.level h) (smeta.place key) leaf := by
  induction fuel generalizing d s with
  | zero => cases enough
  | succ fuel ih =>
    unfold findLeaf
    rcases le.eq_or_lt with rfl | lt
    · obtain ⟨next, entries, stored⟩ := shape.leaf covers.mem
      simp only [stored]
      exact ⟨s, rfl, covers⟩
    · obtain ⟨next, keys, rightmost, stored⟩ := shape.nonleaf lt covers.mem
      have sorted := (shape.keys_sorted lt covers.mem stored).1
      simp only [stored, bsearchKeyLow_seps sorted, ← slotAt_id keys rightmost s.hi]
      exact ih lt (by omega) (shape.covers_child lt covers stored)

theorem depth_lt (shape : Shape t h) : h - 0 < t.rootLevel + 1 := by
  rw [shape.rootLevel_eq]
  omega

/-- The search from the root arrives at the leaf that covers the place. -/
theorem findLeaf_root (shape : Shape t h) (key : κ) (smeta : SeqFilter) :
    ∃ leaf, findLeaf t key smeta (t.rootLevel + 1) t.rootid = some leaf.id ∧
      Covers (t.level h) (smeta.place key) leaf :=
  shape.findLeaf_covers key smeta (Nat.zero_le h) shape.depth_lt (covers_root t _)

end Shape

end Zetascale.Btree
