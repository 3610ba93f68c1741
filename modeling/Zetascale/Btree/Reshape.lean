import Zetascale.Btree.Split

/-!
# What a descent does to the tree

On its way down a write splits full nodes. `Reshape` says once what each of
these changes is: a new root, a non-leaf in two, a leaf in two. Everything that
a write keeps true before it reaches its leaf follows from these three cases.
-/

namespace Zetascale.Btree

open List Option Btree.Tree

variable {κ : Type}

theorem splitRoot_nodes (t : Tree κ) (level id : ℕ) : (splitRoot t level).nodes id =
    if id = t.logical_id_counter then some (.nonleaf (level + 1) 0 [] t.rootid)
    else t.nodes id := by
  simp [splitRoot, getNewNode, setNode, Function.update_apply]

variable [LinearOrder κ]

/-- One structural change, from a tree with leaves at depth `h` to one with
leaves at depth `h'`. -/
inductive Reshape (cfg : Config κ) : Tree κ → ℕ → Tree κ → ℕ → Prop
  /-- `split_root`, over a root that is not an empty non-leaf. -/
  | root {t : Tree κ} {h : ℕ}
      (keyed : ∀ level next rightmost, t.nodes t.rootid ≠ some (.nonleaf level next [] rightmost)) :
      Reshape cfg t h (splitRoot t h) (h + 1)
  /-- A non-leaf becomes two, and the key between them goes to the parent. -/
  | nonleaf {t : Tree κ} {h d : ℕ} {sp : Slot (Pos κ)} {plevel pnext prightmost : ℕ}
      {front back : List (Sep κ)} {level next rightmost c : ℕ} {kl kr : List (Sep κ)}
      {promoted : Sep κ} {hi : WithTop (Pos κ)}
      (split : Splitting t h d sp (.nonleaf plevel pnext (front ++ back) prightmost)
        (.nonleaf plevel pnext (front ++ { promoted with ptr := c } ::
          (repointed back prightmost t.logical_id_counter).1)
          (repointed back prightmost t.logical_id_counter).2)
        (.nonleaf level next (kl ++ promoted :: kr) rightmost)
        (.nonleaf level t.logical_id_counter kl promoted.ptr)
        (.nonleaf level next kr rightmost) c promoted.pos hi)
      (inner : d + 1 < h)
      (fits : vnodeUsedSpace cfg (front ++ back) + promoted.size cfg ≤ cfg.nodesizeLessHdr)
      (half : vnodeUsedSpace cfg kl ≤ cfg.nodesizeLessHdr / 2)
      (past : cfg.nodesizeLessHdr / 2 < vnodeUsedSpace cfg kl + promoted.size cfg)
      (more : kr ≠ []) :
      Reshape cfg t h (t.splitNodes c (.nonleaf level t.logical_id_counter kl promoted.ptr)
        (.nonleaf level next kr rightmost) sp.id
        (.nonleaf plevel pnext (front ++ { promoted with ptr := c } ::
          (repointed back prightmost t.logical_id_counter).1)
          (repointed back prightmost t.logical_id_counter).2)) h
  /-- A leaf becomes two, and the last key of the left one goes to the parent. -/
  | leaf {t : Tree κ} {d : ℕ} {sp : Slot (Pos κ)} {plevel pnext prightmost : ℕ}
      {front back : List (Sep κ)} {next c : ℕ} {l r : List (Entry κ)} {last : Entry κ}
      {hi : WithTop (Pos κ)}
      (split : Splitting t (d + 1) d sp (.nonleaf plevel pnext (front ++ back) prightmost)
        (.nonleaf plevel pnext (front ++ ⟨last.key, last.seqno, c⟩ ::
          (repointed back prightmost t.logical_id_counter).1)
          (repointed back prightmost t.logical_id_counter).2)
        (.leaf next (l ++ [last] ++ r)) (.leaf t.logical_id_counter (l ++ [last])) (.leaf next r)
        c last.pos hi)
      (fits : vnodeUsedSpace cfg (front ++ back) + (sizeofVkey + cfg.keylen last.key) ≤
        cfg.nodesizeLessHdr)
      (more : r ≠ []) :
      Reshape cfg t (d + 1) (t.splitNodes c (.leaf t.logical_id_counter (l ++ [last]))
        (.leaf next r) sp.id (.nonleaf plevel pnext (front ++ ⟨last.key, last.seqno, c⟩ ::
          (repointed back prightmost t.logical_id_counter).1)
          (repointed back prightmost t.logical_id_counter).2)) (d + 1)

/-! ## A new root -/

variable {t : Tree κ} {h : ℕ} {s : Slot (Pos κ)}

theorem Shape.splitRoot_other (shape : Shape t h) {j : ℕ} (le : j ≤ h)
    (mem : s ∈ t.level j) : (splitRoot t h).nodes s.id = t.nodes s.id := by
  rw [splitRoot_nodes, if_neg (Splitting.fresh_ne shape le mem)]

theorem Shape.splitRoot_level (shape : Shape t h) {d : ℕ} (le : d ≤ h) :
    (splitRoot t h).level (d + 1) = t.level d := by
  have below : (splitRoot t h).level (d + 1) =
      Zetascale.level (childSlots (splitRoot t h).nodes) [⟨t.rootid, ⊤⟩] d := by
    apply level_push
    have root : (Btree.splitRoot t h).nodes (Btree.splitRoot t h).rootid =
        some (.nonleaf (h + 1) 0 [] t.rootid) := by
      exact if_pos rfl
    simp [childSlots, root, Node.slots]
  rw [below]
  apply level_congr
  intro j lt s mem
  exact childSlots_congr (shape.splitRoot_other (by omega) mem)

theorem Shape.splitRoot (shape : Shape t h) : Shape (splitRoot t h) (h + 1) := by
  have leaves := shape.splitRoot_level le_rfl
  have rootUsed : t.nodes t.rootid ≠ none := by
    obtain ⟨n, stored, -⟩ := shape.kinds 0 (Nat.zero_le h) ⟨t.rootid, ⊤⟩ (by simp)
    simp [stored]
  refine ⟨?kinds, ?nodup, ?reached, ?ids, ?tiled, ?linked⟩
  case kinds =>
    intro d le s mem
    cases d with
    | zero =>
      obtain rfl := mem_singleton.mp mem
      refine ⟨.nonleaf (h + 1) 0 [] t.rootid, ?_, rfl, Nat.succ_ne_zero h⟩
      exact if_pos rfl
    | succ d =>
      rw [shape.splitRoot_level (by omega)] at mem
      rw [shape.splitRoot_other (by omega) mem, Nat.add_sub_add_right]
      exact shape.kinds d (by omega) s mem
  case nodup =>
    intro d le
    cases d with
    | zero => simp
    | succ d =>
      rw [shape.splitRoot_level (by omega)]
      exact shape.nodup d (by omega)
  case reached =>
    intro id used
    rw [splitRoot_nodes] at used
    by_cases isNew : id = t.logical_id_counter
    · exact ⟨0, Nat.zero_le _, ⟨t.logical_id_counter, ⊤⟩, by simp [Btree.splitRoot], isNew.symm⟩
    · rw [if_neg isNew] at used
      obtain ⟨d, le, s, mem, same⟩ := shape.reached id used
      exact ⟨d + 1, Nat.succ_le_succ le, s, by rw [shape.splitRoot_level le]; exact mem, same⟩
  case ids =>
    intro id used
    have counter : (Btree.splitRoot t h).logical_id_counter = t.logical_id_counter + 1 := rfl
    rw [splitRoot_nodes] at used
    have rootIds := shape.ids _ rootUsed
    by_cases isNew : id = t.logical_id_counter
    · subst isNew
      exact ⟨by simp only [BAD_CHILD]; omega, by omega⟩
    · rw [if_neg isNew] at used
      have old := shape.ids id used
      exact ⟨old.1, by omega⟩
  case tiled =>
    rw [leaves, map_congr_left fun s mem => by
      rw [cell, entriesOf_congr (shape.splitRoot_other le_rfl mem)]]
    exact shape.tiled
  case linked =>
    rw [leaves]
    apply shape.linked.congr
    intro id mem
    obtain ⟨s, sMem, rfl⟩ := mem_map.mp mem
    exact nextOf_congr (shape.splitRoot_other le_rfl sMem)

/-! ## What every change keeps -/

variable {cfg : Config κ} {l r : List (Entry κ)} {last : Entry κ}

section

variable {t' : Tree κ} {h' : ℕ}

theorem Shape.entries_sorted (shape : Shape t h) (mem : s ∈ t.level h) :
    SortedBy Entry.pos (entriesOf t.nodes s.id) := by
  obtain ⟨pre, post, cut⟩ := append_of_mem mem
  exact (shape.tiled_cut cut).2.2.1.sorted

theorem Shape.leaf_sorted (shape : Shape t h) {next : ℕ}
    {entries : List (Entry κ)} (mem : s ∈ t.level h)
    (stored : t.nodes s.id = some (.leaf next entries)) : SortedBy Entry.pos entries := by
  have sorted := shape.entries_sorted mem
  rwa [entriesOf, stored] at sorted

theorem sorted_halves (sorted : SortedBy Entry.pos (l ++ [last] ++ r)) :
    (∀ a ∈ l ++ [last], a.pos ≤ last.pos) ∧ ∀ b ∈ r, last.pos < b.pos := by
  rw [← append_cons] at sorted
  obtain ⟨-, tail, apart⟩ := sortedBy_append.mp sorted
  constructor
  · exact forall_mem_append.mpr ⟨fun a inLeft => (apart a inLeft last mem_cons_self).le,
      forall_mem_singleton.mpr le_rfl⟩
  · exact (sortedBy_cons.mp tail).1

section

variable (change : Reshape cfg t h t' h')

include change

theorem Reshape.shape (shape : Shape t h) : Shape t' h' := by
  cases change with
  | root => exact shape.splitRoot
  | nonleaf split inner => exact shape.splitNonLeaf split inner
  | @leaf d sp _ _ _ front back next c l r last hi split fits more =>
    obtain ⟨upto, beyond⟩ := sorted_halves (shape.leaf_sorted split.child_mem split.childNode)
    exact shape.splitLeaf split upto beyond ⟨last, by simp, rfl⟩ more

/-- A change of the structure moves entries, and changes none. -/
theorem Reshape.contents (shape : Shape t h) : t'.contents h' = t.contents h := by
  cases change with
  | root =>
    unfold contents
    rw [shape.splitRoot_level le_rfl]
    exact flatMap_congr fun s mem =>
      entriesOf_congr (shape.splitRoot_other le_rfl mem)
  | nonleaf split inner =>
    obtain ⟨levels, nodes⟩ := split.leaf_nodes shape inner
    unfold contents
    rw [levels]
    exact flatMap_congr fun s mem => entriesOf_congr (nodes s mem)
  | @leaf d sp _ _ _ front back next c l r last hi split fits more =>
    obtain ⟨pre, post, cut, cut', others, leftNode, rightNode⟩ := split.leaf_level shape
    unfold contents
    rw [cut, cut', flatMap_append, flatMap_append, flatMap_cons, flatMap_cons, flatMap_cons,
      flatMap_congr fun s mem => entriesOf_congr (others s (mem_append_left _ mem)),
      flatMap_congr fun s mem => entriesOf_congr (others s (mem_append_right _ mem))]
    simp [entriesOf, split.childNode, leftNode, rightNode]

theorem Reshape.ovnodes : t'.ovnodes = t.ovnodes := by
  cases change <;> rfl

theorem Reshape.snapshots : t'.snapshots = t.snapshots := by
  cases change <;> rfl

theorem Reshape.counter_le : t.logical_id_counter ≤ t'.logical_id_counter := by
  cases change <;> exact Nat.le_succ _

end

end

/-! ## The splits of the source -/

omit [LinearOrder κ] in
theorem splitCopyCount_spec (threshold : ℕ) (keys : List (Sep κ)) (nbytes : ℕ) :
    (∀ m < splitCopyCount cfg threshold keys nbytes,
      nbytes + vnodeUsedSpace cfg (keys.take m) ≤ threshold) ∧
    splitCopyCount cfg threshold keys nbytes ≤ keys.length ∧
    (splitCopyCount cfg threshold keys nbytes < keys.length → threshold < nbytes +
        vnodeUsedSpace cfg (keys.take (splitCopyCount cfg threshold keys nbytes))) := by
  induction keys generalizing nbytes with
  | nil => simp [splitCopyCount]
  | cons s rest ih =>
    unfold splitCopyCount
    split_ifs with below
    · obtain ⟨upto, le, passed⟩ := ih (nbytes + s.size cfg)
      refine ⟨?_, by simpa using le, ?_⟩
      · intro m lt
        cases m with
        | zero => simpa using below
        | succ m =>
          have ofRest := upto m (by omega)
          simp only [take_succ_cons, vnodeUsedSpace_cons]
          omega
      · intro lt
        have ofRest := passed (by simpa using lt)
        simp only [take_succ_cons, vnodeUsedSpace_cons]
        omega
    · refine ⟨by simp, by simp, ?_⟩
      omega

omit [LinearOrder κ] in
/-- The keys that `split_copy` moves: half a node stays on the left, the next
key is promoted, and the rest goes to the right. -/
theorem splitCopyCount_cut {keys : List (Sep κ)}
    (copies : splitCopyCount cfg (cfg.nodesizeLessHdr / 2) keys 0 ≠ 0)
    (rest : splitCopyCount cfg (cfg.nodesizeLessHdr / 2) keys 0 < keys.length) :
    ∃ kl promoted kr, keys = kl ++ promoted :: kr ∧ kr ≠ [] ∧
      splitCopyCount cfg (cfg.nodesizeLessHdr / 2) keys 0 = kl.length + 1 ∧
      vnodeUsedSpace cfg kl ≤ cfg.nodesizeLessHdr / 2 ∧
      cfg.nodesizeLessHdr / 2 < vnodeUsedSpace cfg kl + promoted.size cfg := by
  obtain ⟨upto, -, passed⟩ := splitCopyCount_spec (cfg.nodesizeLessHdr / 2) keys 0
  obtain ⟨count, eq⟩ := Nat.exists_eq_succ_of_ne_zero copies
  have past := passed rest
  rw [eq] at rest past upto
  have inside : count < keys.length := by omega
  refine ⟨keys.take count, keys[count], keys.drop (count + 1), ?_, ?_, ?_, ?_, ?_⟩
  · rw [cons_getElem_drop_succ, take_append_drop]
  · rw [ne_eq, drop_eq_nil_iff]
    omega
  · rw [length_take]
    omega
  · simpa using upto count (Nat.lt_succ_self count)
  · rw [Nat.succ_eq_add_one, ← take_concat_get' keys count inside, vnodeUsedSpace_append] at past
    simpa only [vnodeUsedSpace_cons, vnodeUsedSpace_nil, zero_add, add_zero] using past

variable {d : ℕ} {sp : Slot (Pos κ)} {plevel pnext prightmost : ℕ} {front back : List (Sep κ)}
  {c : ℕ} {hi : WithTop (Pos κ)}
  (stored : t.nodes sp.id = some (.nonleaf plevel pnext (front ++ back) prightmost))
  (child : slotAt (front ++ back) prightmost sp.hi front.length = ⟨c, hi⟩)

include stored child

/-- The child's level around the child: separators before it bound slots before
it. -/
theorem Shape.around_child (shape : Shape t h) (lt : d < h) (mem : sp ∈ t.level d) :
    (∃ pre post, t.level (d + 1) = pre ++ ⟨c, hi⟩ :: post ∧
      ∀ x ∈ front, (⟨x.ptr, (x.pos : WithTop (Pos κ))⟩ : Slot (Pos κ)) ∈ pre) ∧
    ∀ x ∈ back, hi ≤ x.pos := by
  have sorted := (shape.keys_sorted lt mem stored).1
  constructor
  · obtain ⟨pre, post, cut⟩ := append_of_mem mem
    have children : childSlots t.nodes sp =
        front.map (fun x => ⟨x.ptr, (x.pos : WithTop (Pos κ))⟩) ++
          ⟨c, hi⟩ :: slotsAfter back prightmost sp.hi := by
      simp [childSlots, stored, slots_at, child]
    refine ⟨pre.flatMap (childSlots t.nodes) ++
      front.map (fun x => ⟨x.ptr, (x.pos : WithTop (Pos κ))⟩),
      slotsAfter back prightmost sp.hi ++ post.flatMap (childSlots t.nodes), ?_, ?_⟩
    · rw [Tree.level_succ, flatMap_split cut, children]
      simp
    · intro x xMem
      exact mem_append_right _ (mem_map.mpr ⟨x, xMem, rfl⟩)
  · intro x xMem
    cases back with
    | nil => simp at xMem
    | cons y rest =>
      have same : (y.pos : WithTop (Pos κ)) = hi := by
        simpa [slotAt] using congrArg Slot.hi child
      rw [← same, WithTop.coe_le_coe]
      have tail := (sortedBy_append.mp sorted).2.1
      rcases mem_cons.mp xMem with rfl | later
      · exact le_refl _
      · exact ((sortedBy_cons.mp tail).1 x later).le

variable {next : ℕ}

section

variable (shape : Shape t (d + 1)) (mem : sp ∈ t.level d)
  (childNode : t.nodes c = some (.leaf next (l ++ [last] ++ r))) (more : r ≠ [])

include shape mem childNode more

/-- The last entry of the left half lies between the separators around the
leaf. -/
theorem Shape.last_between : (∀ x ∈ front, x.pos < last.pos) ∧ ∀ x ∈ back, last.pos < x.pos := by
  obtain ⟨⟨pre, post, cut, inPre⟩, after⟩ :=
    shape.around_child stored child (Nat.lt_succ_self d) mem
  have entries : entriesOf t.nodes c = l ++ [last] ++ r := by simp [entriesOf, childNode]
  have childMem : (⟨c, hi⟩ : Slot (Pos κ)) ∈ t.level (d + 1) := by simp [cut]
  constructor
  · intro x xMem
    have tiled := shape.tiled
    rw [cut, map_append, map_cons] at tiled
    exact WithTop.coe_lt_coe.mp (tiled.before (mem_map_of_mem (inPre x xMem))
      (by simp [cell, entries]))
  · intro x xMem
    obtain ⟨b, bMem⟩ := exists_mem_of_ne_nil r more
    have beyond := (sorted_halves (entries ▸ shape.entries_sorted childMem)).2 b bMem
    have below : (b.pos : WithTop (Pos κ)) ≤ hi := shape.upto_hi childMem (by simp [entries, bMem])
    exact WithTop.coe_lt_coe.mp
      ((WithTop.coe_lt_coe.mpr beyond).trans_le (below.trans (after x xMem)))

/-- One leaf split of the source is a `Reshape`, when the separator fits in the
parent. -/
theorem Shape.splitLeaf_eq (positive : 0 < last.seqno) :
    Btree.splitLeaf cfg t sp.id front.length c next (l ++ [last] ++ r) l.length =
      if vnodeUsedSpace cfg (front ++ back) + (sizeofVkey + cfg.keylen last.key) ≤
          cfg.nodesizeLessHdr then
        some (t.splitNodes c (.leaf t.logical_id_counter (l ++ [last])) (.leaf next r) sp.id
          (.nonleaf plevel pnext (front ++ ⟨last.key, last.seqno, c⟩ ::
            (repointed back prightmost t.logical_id_counter).1)
            (repointed back prightmost t.logical_id_counter).2), last, t.logical_id_counter)
      else none := by
  obtain ⟨before, after⟩ := shape.last_between stored child mem childNode more
  have sorted := (shape.keys_sorted (Nat.lt_succ_self d) mem stored).1
  have freshParent := Splitting.fresh_ne shape (Nat.le_succ d) mem
  have parentNe : sp.id ≠ c := by
    rintro same
    rw [same, childNode] at stored
    cases stored
  have entry : (l ++ [last] ++ r)[l.length]? = some last := by simp
  have half : l.length + 1 = (l ++ [last]).length := by simp
  have leftHalf : (l ++ [last] ++ r).take (l.length + 1) = l ++ [last] := by
    rw [half, take_left]
  have rightHalf : (l ++ [last] ++ r).drop (l.length + 1) = r := by
    rw [half, drop_left]
  have parentNode : ((t.getNewNode (.leaf next r)).setNode c
      (.leaf t.logical_id_counter (l ++ [last]))).nodes sp.id =
      some (.nonleaf plevel pnext (front ++ back) prightmost) := by
    simp [setNode, getNewNode, parentNe, freshParent, stored]
  have space : Sep.size cfg ⟨last.key, last.seqno, c⟩ = sizeofVkey + cfg.keylen last.key := rfl
  have inserted := splitInParent_eq cfg ⟨last.key, last.seqno, c⟩ t.logical_id_counter parentNode
    sorted before after positive
  rw [space] at inserted
  simp only [Btree.splitLeaf, entry, leftHalf, rightHalf, inserted, bind_eq_bind, bind_some]
  split_ifs
  · rfl
  · rfl

end

/-! ### Non-leaves -/

variable {level rightmost : ℕ} {kl kr : List (Sep κ)} {promoted : Sep κ} (shape : Shape t h)
  (inner : d + 1 < h) (mem : sp ∈ t.level d)
  (childNode : t.nodes c = some (.nonleaf level next (kl ++ promoted :: kr) rightmost))

include shape inner mem childNode

/-- The promoted key lies between the separators around the node. -/
theorem Shape.promoted_between :
    (∀ x ∈ front, x.pos < promoted.pos) ∧ ∀ x ∈ back, promoted.pos < x.pos := by
  have lt : d < h := Nat.lt_of_succ_lt inner
  obtain ⟨⟨pre, post, cut, inPre⟩, after⟩ := shape.around_child stored child lt mem
  have childMem : (⟨c, hi⟩ : Slot (Pos κ)) ∈ t.level (d + 1) := by simp [cut]
  have slotMem : (⟨promoted.ptr, (promoted.pos : WithTop (Pos κ))⟩ : Slot (Pos κ)) ∈
      childSlots t.nodes ⟨c, hi⟩ := by
    simp [childSlots, childNode, Node.slots]
  constructor
  · intro x xMem
    exact WithTop.coe_lt_coe.mp ((shape.ascending inner).before_children
      (fun s sMem => shape.closed inner sMem) cut (inPre x xMem) slotMem)
  · intro x xMem
    have below := (shape.keys_sorted inner childMem childNode).2 promoted (by simp)
    exact WithTop.coe_lt_coe.mp (below.trans_le (after x xMem))

/-- The split of a non-leaf is a `Reshape`, when the promoted key fits in the
parent. -/
theorem Shape.msplitNonLeaf_eq
    (count : splitCopyCount cfg (cfg.nodesizeLessHdr / 2) (kl ++ promoted :: kr) 0 = kl.length + 1)
    (more : kr ≠ []) (positive : 0 < promoted.seqno) : msplitNonLeaf cfg t sp.id front.length c =
      if vnodeUsedSpace cfg (front ++ back) + promoted.size cfg ≤ cfg.nodesizeLessHdr then
        some (t.splitNodes c (.nonleaf level t.logical_id_counter kl promoted.ptr)
          (.nonleaf level next kr rightmost) sp.id
          (.nonleaf plevel pnext (front ++ { promoted with ptr := c } ::
            (repointed back prightmost t.logical_id_counter).1)
            (repointed back prightmost t.logical_id_counter).2))
      else none := by
  have lt : d < h := Nat.lt_of_succ_lt inner
  obtain ⟨before, after⟩ := shape.promoted_between stored child inner mem childNode
  have sorted := (shape.keys_sorted lt mem stored).1
  have freshParent := Splitting.fresh_ne shape lt.le mem
  obtain ⟨⟨pre, post, cut, -⟩, -⟩ := shape.around_child stored child lt mem
  have childMem : (⟨c, hi⟩ : Slot (Pos κ)) ∈ t.level (d + 1) := by simp [cut]
  have parentNe : sp.id ≠ c := by
    intro same
    have depths := shape.depth_unique lt.le lt mem childMem same
    omega
  have parentNode : ((t.getNewNode (.nonleaf level next kr rightmost)).setNode c
      (.nonleaf level t.logical_id_counter kl promoted.ptr)).nodes sp.id =
      some (.nonleaf plevel pnext (front ++ back) prightmost) := by
    simp [setNode, getNewNode, parentNe, freshParent, stored]
  have inserted := splitInParent_eq cfg { promoted with ptr := c } t.logical_id_counter parentNode
    sorted before after positive
  have notAll : ¬ (kl.length + 1 = 0 ∨ (kl ++ promoted :: kr).length ≤ kl.length + 1) := by
    have := length_pos_iff.mpr more
    simp only [length_append, length_cons]
    omega
  have half : kl.length + 1 = (kl ++ [promoted]).length := by simp
  have rightKeys : (kl ++ promoted :: kr).drop (kl.length + 1) = kr := by
    rw [append_cons, half, drop_left]
  have leftKeys : (kl ++ promoted :: kr).take kl.length = kl := take_left
  have entry : (kl ++ promoted :: kr)[kl.length]? = some promoted := by simp
  simp only [msplitNonLeaf, childNode, count, if_neg notAll, Nat.add_sub_cancel, entry, rightKeys,
    leftKeys, inserted, bind_eq_bind, bind_some]
  rfl

end Zetascale.Btree
