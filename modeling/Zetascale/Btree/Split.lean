import Zetascale.Btree.Shape

/-!
# Splits keep the shape

A split changes three nodes: the node is cut in two, the right part under a new
id, and the parent gets a separator between them. Read by levels, one slot of
the child's level becomes two and nothing else changes, whether the node is a
leaf or not.
-/

namespace Zetascale.Btree

open List

variable {κ : Type} {nodes nodes' : ℕ → Option (Node κ)}

theorem childSlots_congr {s : Slot (Pos κ)}
    (same : nodes' s.id = nodes s.id) : childSlots nodes' s = childSlots nodes s := by
  unfold childSlots
  rw [same]

theorem entriesOf_congr {id : ℕ}
    (same : nodes' id = nodes id) : entriesOf nodes' id = entriesOf nodes id := by
  unfold entriesOf
  rw [same]

theorem nextOf_congr {id : ℕ}
    (same : nodes' id = nodes id) : nextOf nodes' id = nextOf nodes id := by
  unfold nextOf
  rw [same]

/-- The tree after the node `c` became `left` and a new node `right`, and its
parent `p` became `above`. -/
def Tree.splitNodes (t : Tree κ) (c : ℕ) (left right : Node κ) (p : ℕ) (above : Node κ) :
    Tree κ :=
  ((t.getNewNode right).setNode c left).setNode p above

open Btree.Tree

theorem Tree.splitNodes_nodes (t : Tree κ) (c p : ℕ) (left right above : Node κ) (id : ℕ) :
    (t.splitNodes c left right p above).nodes id =
      if id = p then some above else if id = c then some left
      else if id = t.logical_id_counter then some right else t.nodes id := by
  simp [splitNodes, setNode, getNewNode, Function.update_apply]

/-- The node `c` in the slot under `hi` becomes two, with `mid` between them;
`sp` is the slot of its parent. -/
structure Splitting [LinearOrder κ] (t : Tree κ) (h d : ℕ) (sp : Slot (Pos κ))
    (parent above node left right : Node κ) (c : ℕ) (mid hi : WithTop (Pos κ)) : Prop where
  lt : d < h
  mem : sp ∈ t.level d
  parentNode : t.nodes sp.id = some parent
  childNode : t.nodes c = some node
  slots : ∃ front back, parent.slots sp.hi = front ++ ⟨c, hi⟩ :: back ∧
    above.slots sp.hi = front ++ ⟨c, mid⟩ :: ⟨t.logical_id_counter, hi⟩ :: back
  parentKind : ∀ k, parent.HasLevel k → above.HasLevel k
  leftKind : ∀ k, node.HasLevel k → left.HasLevel k
  rightKind : ∀ k, node.HasLevel k → right.HasLevel k
  below : left.slots mid ++ right.slots hi = node.slots hi

variable {t : Tree κ} {h d c next : ℕ} {sp : Slot (Pos κ)} {parent above node left right : Node κ}
  {mid hi : WithTop (Pos κ)}

namespace Splitting

variable [LinearOrder κ] {j : ℕ} {s : Slot (Pos κ)}

theorem fresh_ne (shape : Shape t h) (le : j ≤ h)
    (mem : s ∈ t.level j) : s.id ≠ t.logical_id_counter := by
  obtain ⟨n, stored, -⟩ := shape.kinds j le s mem
  exact (shape.ids s.id (by simp [stored])).2.ne

theorem nodes_other (shape : Shape t h) (le : j ≤ h)
    (mem : s ∈ t.level j) (notParent : s.id ≠ sp.id) (notChild : s.id ≠ c) :
    (t.splitNodes c left right sp.id above).nodes s.id = t.nodes s.id := by
  rw [splitNodes_nodes, if_neg notParent, if_neg notChild, if_neg (fresh_ne shape le mem)]

variable (split : Splitting t h d sp parent above node left right c mid hi)

include split in
theorem child_mem : (⟨c, hi⟩ : Slot (Pos κ)) ∈ t.level (d + 1) := by
  obtain ⟨front, back, before, -⟩ := split.slots
  rw [Tree.level_succ, mem_flatMap]
  refine ⟨sp, split.mem, ?_⟩
  simp [childSlots, split.parentNode, before]

variable (shape : Shape t h)

include split shape

/-- The parent is another node than the child. -/
theorem ne : sp.id ≠ c := by
  intro same
  have depths := shape.depth_unique split.lt.le split.lt split.mem split.child_mem same
  omega

theorem left_node : (t.splitNodes c left right sp.id above).nodes c = some left := by
  simp [splitNodes_nodes, (split.ne shape).symm]

theorem right_node :
    (t.splitNodes c left right sp.id above).nodes t.logical_id_counter = some right := by
  have freshParent := fresh_ne shape split.lt.le split.mem
  have freshChild : c ≠ t.logical_id_counter := fresh_ne shape split.lt split.child_mem
  simp [splitNodes_nodes, freshParent.symm, freshChild.symm]

/-- Slots at another depth than the parent's and the child's keep their nodes. -/
theorem nodes_depth (le : j ≤ h) (mem : s ∈ t.level j) (ne : j ≠ d) (ne' : j ≠ d + 1) :
    (t.splitNodes c left right sp.id above).nodes s.id = t.nodes s.id := by
  apply nodes_other shape le mem
  · exact fun same => ne (shape.depth_unique le split.lt.le mem split.mem same)
  · exact fun same => ne' (shape.depth_unique le split.lt mem split.child_mem same)

theorem level_above (le : j ≤ d) : (t.splitNodes c left right sp.id above).level j = t.level j := by
  have lt := split.lt
  apply level_congr
  intro i less s mem
  exact childSlots_congr (split.nodes_depth shape (by omega) mem (by omega) (by omega))

theorem level_child : ∃ pre post, t.level (d + 1) = pre ++ ⟨c, hi⟩ :: post ∧
      (t.splitNodes c left right sp.id above).level (d + 1) =
        pre ++ ⟨c, mid⟩ :: ⟨t.logical_id_counter, hi⟩ :: post := by
  have lt := split.lt
  obtain ⟨front, back, before, after⟩ := split.slots
  obtain ⟨pre, post, cut⟩ := append_of_mem split.mem
  have others : ∀ s ∈ pre ++ post,
      childSlots (t.splitNodes c left right sp.id above).nodes s = childSlots t.nodes s := by
    intro s mem
    obtain ⟨inLevel, notParent⟩ := shape.beside lt.le cut mem
    refine childSlots_congr (nodes_other shape lt.le inLevel notParent fun same => ?_)
    have depths := shape.depth_unique lt.le lt inLevel split.child_mem same
    omega
  have parentBefore : childSlots t.nodes sp = front ++ ⟨c, hi⟩ :: back := by
    simp [childSlots, split.parentNode, before]
  have parentAfter : childSlots (t.splitNodes c left right sp.id above).nodes sp =
      front ++ ⟨c, mid⟩ :: ⟨t.logical_id_counter, hi⟩ :: back := by
    simp [childSlots, splitNodes_nodes, after]
  refine ⟨pre.flatMap (childSlots t.nodes) ++ front,
    back ++ post.flatMap (childSlots t.nodes), ?_, ?_⟩
  · rw [Tree.level_succ, flatMap_split cut, parentBefore]
    simp
  · rw [Tree.level_succ, split.level_above shape le_rfl, flatMap_split cut, parentAfter,
      flatMap_congr fun s mem => others s (mem_append_left _ mem),
      flatMap_congr fun s mem => others s (mem_append_right _ mem)]
    simp

/-- Slots of the child's level other than the child's own keep their nodes. -/
theorem nodes_beside {pre post : List (Slot (Pos κ))}
    (cut : t.level (d + 1) = pre ++ ⟨c, hi⟩ :: post) (mem : s ∈ pre ++ post) :
    (t.splitNodes c left right sp.id above).nodes s.id = t.nodes s.id := by
  obtain ⟨inLevel, notChild⟩ := shape.beside split.lt cut mem
  refine nodes_other shape split.lt inLevel (fun same => ?_) notChild
  have depths := shape.depth_unique split.lt split.lt.le inLevel split.mem same
  omega

theorem level_below (gt : d + 1 < j) (le : j ≤ h) :
    (t.splitNodes c left right sp.id above).level j = t.level j := by
  obtain ⟨pre, post, cut, cut'⟩ := split.level_child shape
  have others : ∀ s ∈ pre ++ post,
      childSlots (t.splitNodes c left right sp.id above).nodes s = childSlots t.nodes s :=
    fun s mem => childSlots_congr (split.nodes_beside shape cut mem)
  have leftSlots : childSlots (t.splitNodes c left right sp.id above).nodes ⟨c, mid⟩ =
      left.slots mid := by
    simp [childSlots, split.left_node shape]
  have rightSlots : childSlots (t.splitNodes c left right sp.id above).nodes
      ⟨t.logical_id_counter, hi⟩ = right.slots hi := by
    simp [childSlots, split.right_node shape]
  have children : childSlots t.nodes ⟨c, hi⟩ = left.slots mid ++ right.slots hi := by
    simp [childSlots, split.childNode, split.below]
  have next : (t.splitNodes c left right sp.id above).level (d + 2) = t.level (d + 2) := by
    rw [Tree.level_succ _ (d + 1), Tree.level_succ _ (d + 1), cut', flatMap_split cut,
      flatMap_append,
      flatMap_cons, flatMap_cons, leftSlots, rightSlots, children,
      flatMap_congr fun s mem => others s (mem_append_left _ mem),
      flatMap_congr fun s mem => others s (mem_append_right _ mem)]
    simp
  obtain ⟨k, rfl⟩ := Nat.exists_eq_add_of_le (show d + 2 ≤ j by omega)
  apply level_congr_from next
  intro i ge less s mem
  exact childSlots_congr (split.nodes_depth shape (by omega) mem (by omega) (by omega))

theorem level_other (le : j ≤ h) (ne : j ≠ d + 1) :
    (t.splitNodes c left right sp.id above).level j = t.level j := by
  rcases Nat.lt_or_gt_of_ne ne with less | more
  · exact split.level_above shape (Nat.le_of_lt_succ less)
  · exact split.level_below shape more le

end Splitting

/-- A split keeps the shape, up to the order and the chain of the leaves. -/
theorem Shape.split [LinearOrder κ] {c : ℕ}
    (shape : Shape t h) (split : Splitting t h d sp parent above node left right c mid hi)
    (tiled : Tiled Entry.pos ⊥ (((t.splitNodes c left right sp.id above).level h).map
      (t.splitNodes c left right sp.id above).cell))
    (linked : Linked (nextOf (t.splitNodes c left right sp.id above).nodes)
      (((t.splitNodes c left right sp.id above).level h).map Slot.id) BAD_CHILD) :
    Shape (t.splitNodes c left right sp.id above) h := by
  have lt := split.lt
  obtain ⟨pre, post, cut, cut'⟩ := split.level_child shape
  obtain ⟨n, stored, kind⟩ := shape.kinds (d + 1) lt ⟨c, hi⟩ split.child_mem
  obtain rfl : n = node := Option.some.inj (stored.symm.trans split.childNode)
  obtain ⟨p, storedParent, parentKind⟩ := shape.kinds d lt.le sp split.mem
  obtain rfl : p = parent := Option.some.inj (storedParent.symm.trans split.parentNode)
  refine ⟨?kinds, ?nodup, ?reached, ?ids, tiled, linked⟩
  case kinds =>
    intro j le s mem
    by_cases atChild : j = d + 1
    · subst atChild
      rw [cut'] at mem
      simp only [mem_append, mem_cons] at mem
      rcases mem with inPre | rfl | rfl | inPost
      · rw [split.nodes_beside shape cut (mem_append_left _ inPre)]
        exact shape.kinds (d + 1) lt s (by rw [cut]; exact mem_append_left _ inPre)
      · exact ⟨left, split.left_node shape, split.leftKind _ kind⟩
      · exact ⟨right, split.right_node shape, split.rightKind _ kind⟩
      · rw [split.nodes_beside shape cut (mem_append_right _ inPost)]
        exact shape.kinds (d + 1) lt s (by rw [cut]; simp [inPost])
    · rw [split.level_other shape le atChild] at mem
      by_cases isParent : s.id = sp.id
      · obtain rfl := shape.depth_unique le lt.le mem split.mem isParent
        exact ⟨above, by simp [splitNodes_nodes, isParent], split.parentKind _ parentKind⟩
      · have notChild : s.id ≠ c :=
          fun same => atChild (shape.depth_unique le lt mem split.child_mem same)
        rw [Splitting.nodes_other shape le mem isParent notChild]
        exact shape.kinds j le s mem
  case nodup =>
    intro j le
    by_cases atChild : j = d + 1
    · subst atChild
      have distinct := shape.nodup (d + 1) lt
      have unused : t.logical_id_counter ∉ (t.level (d + 1)).map Slot.id := by
        intro mem
        obtain ⟨s, sMem, same⟩ := mem_map.mp mem
        exact Splitting.fresh_ne shape lt sMem same
      rw [cut] at distinct unused
      rw [cut']
      simp only [map_append, map_cons] at distinct unused ⊢
      rw [append_cons, nodup_middle, nodup_cons, ← append_cons]
      exact ⟨unused, distinct⟩
    · rw [split.level_other shape le atChild]
      exact shape.nodup j le
  case reached =>
    intro id used
    rw [splitNodes_nodes] at used
    by_cases isParent : id = sp.id
    · exact ⟨d, lt.le, sp, by rw [split.level_above shape le_rfl]; exact split.mem,
        isParent.symm⟩
    by_cases isChild : id = c
    · exact ⟨d + 1, lt, ⟨c, mid⟩, by rw [cut']; simp, isChild.symm⟩
    by_cases isNew : id = t.logical_id_counter
    · exact ⟨d + 1, lt, ⟨t.logical_id_counter, hi⟩, by rw [cut']; simp, isNew.symm⟩
    rw [if_neg isParent, if_neg isChild, if_neg isNew] at used
    obtain ⟨j, le, s, mem, same⟩ := shape.reached id used
    by_cases atChild : j = d + 1
    · subst atChild
      refine ⟨d + 1, lt, s, ?_, same⟩
      rw [cut, mem_append, mem_cons] at mem
      rw [cut']
      rcases mem with inPre | rfl | inPost
      · exact mem_append_left _ inPre
      · exact absurd same.symm isChild
      · simp [inPost]
    · exact ⟨j, le, s, by rw [split.level_other shape le atChild]; exact mem, same⟩
  case ids =>
    intro id used
    rw [splitNodes_nodes] at used
    have counter : (t.splitNodes c left right sp.id above).logical_id_counter =
        t.logical_id_counter + 1 := rfl
    have parentIds := shape.ids sp.id (by simp [storedParent])
    have childIds := shape.ids c (by simp [stored])
    by_cases isParent : id = sp.id
    · exact ⟨isParent ▸ parentIds.1, by omega⟩
    by_cases isChild : id = c
    · exact ⟨isChild ▸ childIds.1, by omega⟩
    by_cases isNew : id = t.logical_id_counter
    · subst isNew
      exact ⟨by simp only [BAD_CHILD]; omega, by omega⟩
    rw [if_neg isParent, if_neg isChild, if_neg isNew] at used
    have old := shape.ids id used
    exact ⟨old.1, by omega⟩

section

variable [LinearOrder κ]

/-- Above the leaves a split leaves the leaves alone. -/
theorem Splitting.leaf_nodes (split : Splitting t h d sp parent above node left right c mid hi)
    (shape : Shape t h) (inner : d + 1 < h) :
    (t.splitNodes c left right sp.id above).level h = t.level h ∧
      ∀ s ∈ t.level h, (t.splitNodes c left right sp.id above).nodes s.id = t.nodes s.id :=
  ⟨split.level_below shape inner le_rfl, fun _ mem =>
    split.nodes_depth shape le_rfl mem (by omega) (by omega)⟩

theorem Shape.splitNonLeaf (shape : Shape t h)
    (split : Splitting t h d sp parent above node left right c mid hi) (inner : d + 1 < h) :
    Shape (t.splitNodes c left right sp.id above) h := by
  obtain ⟨levels, nodes⟩ := split.leaf_nodes shape inner
  apply shape.split split
  · rw [levels, map_congr_left fun s mem => by
      rw [cell, entriesOf_congr (nodes s mem)]]
    exact shape.tiled
  · rw [levels]
    apply shape.linked.congr
    intro id mem
    obtain ⟨s, sMem, rfl⟩ := mem_map.mp mem
    exact nextOf_congr (nodes s sMem)

end

section

variable [LinearOrder κ] {l r : List (Entry κ)} {m : Pos κ}

section

variable (shape : Shape t (d + 1))
  (split : Splitting t (d + 1) d sp parent above (.leaf next (l ++ r)) (.leaf t.logical_id_counter l) (.leaf next r) c m hi)

include shape split

theorem Splitting.leaf_level : ∃ pre post, t.level (d + 1) = pre ++ ⟨c, hi⟩ :: post ∧
      (t.splitNodes c (.leaf t.logical_id_counter l) (.leaf next r) sp.id above).level (d + 1) =
        pre ++ ⟨c, m⟩ :: ⟨t.logical_id_counter, hi⟩ :: post ∧ (∀ s ∈ pre ++ post,
        (t.splitNodes c (.leaf t.logical_id_counter l) (.leaf next r) sp.id above).nodes s.id =
          t.nodes s.id) ∧
      (t.splitNodes c (.leaf t.logical_id_counter l) (.leaf next r) sp.id above).nodes c =
        some (.leaf t.logical_id_counter l) ∧
      (t.splitNodes c (.leaf t.logical_id_counter l) (.leaf next r) sp.id above).nodes
        t.logical_id_counter = some (.leaf next r) := by
  obtain ⟨pre, post, cut, cut'⟩ := split.level_child shape
  exact ⟨pre, post, cut, cut', fun s mem => split.nodes_beside shape cut mem,
    split.left_node shape, split.right_node shape⟩

theorem Shape.splitLeaf
    (upto : ∀ a ∈ l, a.pos ≤ m) (beyond : ∀ b ∈ r, m < b.pos) (last : ∃ a ∈ l, a.pos = m)
    (more : r ≠ []) :
    Shape (t.splitNodes c (.leaf t.logical_id_counter l) (.leaf next r) sp.id above) (d + 1) := by
  obtain ⟨pre, post, cut, cut', others, leftNode, rightNode⟩ := split.leaf_level shape
  have childEntries : entriesOf t.nodes c = l ++ r := by simp [entriesOf, split.childNode]
  apply shape.split split
  · obtain ⟨front, start, between, back⟩ := shape.tiled_cut cut
    simp only [cell, childEntries] at start between back
    obtain ⟨leftBetween, rightBetween⟩ := between.split upto beyond
    have sameCells : ∀ s ∈ pre ++ post,
        (t.splitNodes c (.leaf t.logical_id_counter l) (.leaf next r) sp.id above).cell s =
          t.cell s := by
      intro s mem
      rw [cell, entriesOf_congr (others s mem)]
      rfl
    have midAbove : endOf ⊥ (pre.map t.cell) < ((m : WithTop (Pos κ)) : WithBot _) := by
      obtain ⟨a, aMem, rfl⟩ := last
      exact between.above a (mem_append_left _ aMem)
    have midBelow : ((m : WithTop (Pos κ)) : WithBot (WithTop (Pos κ))) < (hi : WithBot _) := by
      obtain ⟨b, bMem⟩ := exists_mem_of_ne_nil r more
      exact WithBot.coe_lt_coe.mpr ((WithTop.coe_lt_coe.mpr (beyond b bMem)).trans_le
        (between.below b (mem_append_right _ bMem)))
    rw [cut', map_append, map_cons, map_cons, tiled_append,
      map_congr_left fun s mem => sameCells s (mem_append_left _ mem),
      map_congr_left fun s mem => sameCells s (mem_append_right _ mem)]
    simp only [tiled_cons, cell, entriesOf, leftNode, rightNode]
    exact ⟨front, midAbove, leftBetween, midBelow, rightBetween, back⟩
  · have linked := shape.linked
    rw [cut, map_append, map_cons, linked_append] at linked
    obtain ⟨front, first, back⟩ := linked
    simp only [headD_cons, nextOf, split.childNode] at front first
    have sameNext : ∀ s ∈ pre ++ post,
        nextOf (t.splitNodes c (.leaf t.logical_id_counter l) (.leaf next r) sp.id above).nodes
          s.id = nextOf t.nodes s.id := fun s mem => nextOf_congr (others s mem)
    rw [cut', map_append, map_cons, map_cons, linked_append]
    refine ⟨front.congr ?_, ?_, ?_, back.congr ?_⟩
    · intro id mem
      obtain ⟨s, sMem, rfl⟩ := mem_map.mp mem
      exact sameNext s (mem_append_left _ sMem)
    · simp [nextOf, leftNode]
    · simp only [nextOf, rightNode]
      exact first
    · intro id mem
      obtain ⟨s, sMem, rfl⟩ := mem_map.mp mem
      exact sameNext s (mem_append_right _ sMem)

end

end

/-! ## The parent of a split node -/

variable {cfg : Config κ} {front back : List (Sep κ)} {s : Sep κ} {rightmost : ℕ}
  {bound : WithTop (Pos κ)} {newId : ℕ}

/-- The separators from the split child on, with the child's pointer changed. -/
def repointed (back : List (Sep κ)) (rightmost newId : ℕ) : List (Sep κ) × ℕ :=
  match back with
  | [] => ([], newId)
  | x :: rest => ({ x with ptr := newId } :: rest, rightmost)

theorem updatePtr_eq [LinearOrder κ] (front back : List (Sep κ)) (rightmost newId : ℕ) :
    updatePtr (front ++ back) rightmost front.length newId =
      (front ++ (repointed back rightmost newId).1, (repointed back rightmost newId).2) := by
  unfold updatePtr repointed
  cases back with
  | nil => simp
  | cons x rest =>
    have notLast : front.length ≠ (front ++ x :: rest).length := by simp
    rw [if_neg notLast, modify_eq_take_drop]
    simp

theorem repointed_size (back : List (Sep κ)) (rightmost newId : ℕ) :
    vnodeUsedSpace cfg (repointed back rightmost newId).1 = vnodeUsedSpace cfg back := by
  cases back <;> simp [repointed, Sep.size]

theorem repointed_pos (back : List (Sep κ)) (rightmost newId : ℕ) :
    (repointed back rightmost newId).1.map Sep.pos = back.map Sep.pos := by
  cases back <;> simp [repointed, Sep.pos]

/-- The separator of a split goes between the two parts of the child. -/
theorem insertKey_eq [LinearOrder κ] (sorted : SortedBy Sep.pos (front ++ back))
    (before : ∀ x ∈ front, x.pos < s.pos) (after : ∀ x ∈ back, s.pos < x.pos)
    (positive : 0 < s.seqno) : insertKey cfg (front ++ back) s =
      if vnodeUsedSpace cfg (front ++ back) + s.size cfg ≤ cfg.nodesizeLessHdr then
        some (front ++ s :: back) else none := by
  have place : cutIndex Sep.pos (front ++ back) (SeqFilter.place (.le (s.seqno - 1)) s.key) =
      front.length := by
    apply cutIndex_append
    · intro x mem
      refine (before x mem).trans_le (le_of_lt ?_)
      exact (Pos.le_pred_iff positive).mp (le_refl _)
    · intro x mem
      exact (Pos.le_pred_iff positive).mpr (after x mem)
  have space : vnodeUsedSpace cfg (front ++ s :: back) =
      vnodeUsedSpace cfg (front ++ back) + s.size cfg := by
    simp only [vnodeUsedSpace_append, vnodeUsedSpace_cons]
    omega
  simp only [insertKey, ne_of_gt positive, if_false, bsearchKeyLow_seps sorted, place,
    take_left, drop_left, space]

/-- The children after the one before the separators `back`. -/
def slotsAfter (back : List (Sep κ)) (rightmost : ℕ) (bound : WithTop (Pos κ)) :
    List (Slot (Pos κ)) :=
  match back with
  | [] => []
  | _ :: rest => rest.map (fun x => ⟨x.ptr, (x.pos : WithTop (Pos κ))⟩) ++ [⟨rightmost, bound⟩]

/-- The children of a node around one of them. -/
theorem slots_at (front back : List (Sep κ)) (level next rightmost : ℕ) (bound : WithTop (Pos κ)) :
    (Node.nonleaf level next (front ++ back) rightmost).slots bound =
      front.map (fun x => ⟨x.ptr, (x.pos : WithTop (Pos κ))⟩) ++
        slotAt (front ++ back) rightmost bound front.length :: slotsAfter back rightmost bound := by
  cases back <;> simp [Node.slots, slotAt, slotsAfter]

theorem slots_split (child : slotAt (front ++ back) rightmost bound front.length = ⟨c, hi⟩)
    (level next : ℕ) (left : s.ptr = c) :
    (Node.nonleaf level next (front ++ s :: (repointed back rightmost newId).1)
        (repointed back rightmost newId).2).slots bound =
      front.map (fun x => ⟨x.ptr, (x.pos : WithTop (Pos κ))⟩) ++
        ⟨c, (s.pos : WithTop (Pos κ))⟩ :: ⟨newId, hi⟩ :: slotsAfter back rightmost bound := by
  cases back with
  | nil =>
    have same : rightmost = c ∧ bound = hi := by simpa [slotAt] using child
    simp [Node.slots, repointed, slotsAfter, left, same.2]
  | cons x rest =>
    have same : x.ptr = c ∧ (x.pos : WithTop (Pos κ)) = hi := by simpa [slotAt] using child
    have moved : (({ x with ptr := newId } : Sep κ).pos : WithTop (Pos κ)) = hi := same.2
    simp [Node.slots, repointed, slotsAfter, left, moved]

theorem splitInParent_eq [LinearOrder κ] (cfg : Config κ) (s : Sep κ) (newId : ℕ) {parent level : ℕ}
    (stored : t.nodes parent = some (.nonleaf level next (front ++ back) rightmost))
    (sorted : SortedBy Sep.pos (front ++ back)) (before : ∀ x ∈ front, x.pos < s.pos)
    (after : ∀ x ∈ back, s.pos < x.pos) (positive : 0 < s.seqno) :
    splitInParent cfg t parent front.length s newId =
      if vnodeUsedSpace cfg (front ++ back) + s.size cfg ≤ cfg.nodesizeLessHdr then
        some (t.setNode parent (.nonleaf level next
          (front ++ s :: (repointed back rightmost newId).1) (repointed back rightmost newId).2))
      else none := by
  have positions : (front ++ (repointed back rightmost newId).1).map Sep.pos =
      (front ++ back).map Sep.pos := by
    rw [map_append, map_append, repointed_pos]
  have sorted' : SortedBy Sep.pos (front ++ (repointed back rightmost newId).1) := by
    unfold SortedBy at sorted ⊢
    rw [← pairwise_map] at sorted ⊢
    exact positions ▸ sorted
  have after' : ∀ x ∈ (repointed back rightmost newId).1, s.pos < x.pos := by
    intro x mem
    have same := mem_map_of_mem (f := Sep.pos) mem
    rw [repointed_pos] at same
    obtain ⟨y, yMem, eq⟩ := mem_map.mp same
    exact eq ▸ after y yMem
  have space : vnodeUsedSpace cfg (front ++ (repointed back rightmost newId).1) =
      vnodeUsedSpace cfg (front ++ back) := by
    simp [vnodeUsedSpace_append, repointed_size]
  simp only [splitInParent, stored, updatePtr_eq, insertKey_eq sorted' before after' positive, space]
  split_ifs <;> rfl

/-- What the changes of a split come to. -/
theorem splitting_of_parent [LinearOrder κ] {level : ℕ} (lt : d < h) (mem : sp ∈ t.level d)
    (stored : t.nodes sp.id = some (.nonleaf level next (front ++ back) rightmost))
    (child : slotAt (front ++ back) rightmost sp.hi front.length = ⟨c, hi⟩)
    (childNode : t.nodes c = some node) (ptr : s.ptr = c)
    (leftKind : ∀ k, node.HasLevel k → left.HasLevel k)
    (rightKind : ∀ k, node.HasLevel k → right.HasLevel k)
    (below : left.slots s.pos ++ right.slots hi = node.slots hi) :
    Splitting t h d sp (.nonleaf level next (front ++ back) rightmost)
      (.nonleaf level next (front ++ s :: (repointed back rightmost t.logical_id_counter).1)
        (repointed back rightmost t.logical_id_counter).2) node left right c s.pos hi where
  lt := lt
  mem := mem
  parentNode := stored
  childNode := childNode
  slots := by
    exact ⟨_, _, child ▸ slots_at front back level next rightmost sp.hi,
      slots_split child level next ptr⟩
  parentKind := fun _ kind => kind
  leftKind := leftKind
  rightKind := rightKind
  below := below

end Zetascale.Btree
