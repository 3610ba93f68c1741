import Zetascale.Btree.Node

/-!
# Writing a batch of objects

`btree_raw_mput` of `btree/btree_raw.c` hands a batch to `btree_raw_mwrite_low`
again and again. One such call writes some of the first objects and, when a leaf
was split for them, some of the last ones of the subtree it reached; what lies
between is a hole that is taken up later. The model follows the objects by
their index in the batch. What happens in the tree is left open: how far a leaf
can be filled, whether nodes are to be had and which call fails are parameters,
so that the results hold for all of it.
-/

namespace Zetascale.Btree

open List Option

/-- The statuses of the calls that write a batch. -/
inductive MputStatus
  | success
  | keyNotFound
  | objectTooBig
  | failure
  | objectUnknown
  | flashEincons
  | flashEio
  deriving DecidableEq

/-- `storage_error`. -/
def MputStatus.storageError : MputStatus → Bool
  | .flashEincons => true
  | .flashEio => true
  | _ => false

/-! ## The objects for a child -/

section

variable {κ : Type} [LinearOrder κ]

/-- The loop of `get_keys_less_than`. The source's `i_end` is `stop - 1`, and
its `i_largest` of `-1` is `none`. -/
def getKeysLessThanLoop (key : κ) (objs : List κ) : ℕ → ℕ → ℕ → Option ℕ → Option ℕ
  | 0, _, _, i_largest => i_largest
  | fuel + 1, i_start, stop, i_largest =>
    if i_start < stop then
      let i_center := (i_start + stop - 1) / 2
      match objs[i_center]? with
      | none => i_largest
      | some k =>
        if key < k then getKeysLessThanLoop key objs fuel i_start i_center (some i_center)
        else if k < key then getKeysLessThanLoop key objs fuel (i_center + 1) stop i_largest
        -- the tree keeps a key that equals the separator on its left
        else some (i_center + 1)
    else i_largest

/-- `get_keys_less_than`. -/
def getKeysLessThan (key : κ) (objs : List κ) : Option ℕ :=
  let num := match getKeysLessThanLoop key objs objs.length 0 objs.length none with
    | some i_largest => if i_largest < objs.length then i_largest else objs.length
    | none => objs.length
  if num = 0 then none else some num

/-- `get_adjusted_num_objs`, for the child at `nkey` of a node with these
separators (none for a leaf). -/
def getAdjustedNumObjs (seps : List κ) (nkey : ℕ) (objs : List κ) : Option ℕ :=
  if objs.length ≤ 1 then some objs.length
  else
    match seps[nkey]?, objs.getLast? with
    | some key, some last =>
      if last ≤ key then some objs.length else getKeysLessThan key objs
    | _, _ => some objs.length

/-- The first `num` objects are the ones up to the key. -/
structure CutsAt (key : κ) (objs : List κ) (num : ℕ) : Prop where
  inside : num ≤ objs.length
  before : ∀ (i : ℕ) (h : i < objs.length), i < num → objs[i] ≤ key
  after : ∀ (i : ℕ) (h : i < objs.length), num ≤ i → key < objs[i]

variable {key : κ} {objs : List κ}

theorem getKeysLessThanLoop_cuts (sorted : objs.Pairwise (· < ·)) {fuel i_start stop : ℕ}
    {i_largest : Option ℕ} (enough : stop - i_start ≤ fuel) (ordered : i_start ≤ stop)
    (inside : stop ≤ objs.length)
    (before : ∀ (i : ℕ) (h : i < objs.length), i < i_start → objs[i] ≤ key)
    (after : ∀ (i : ℕ) (h : i < objs.length), stop ≤ i → key < objs[i])
    (largest : i_largest.getD objs.length = stop) : CutsAt key objs
      ((getKeysLessThanLoop key objs fuel i_start stop i_largest).getD objs.length) := by
  induction fuel generalizing i_start stop i_largest with
  | zero =>
    obtain rfl : i_start = stop := by omega
    rw [getKeysLessThanLoop, largest]
    exact ⟨inside, before, after⟩
  | succ fuel ih =>
    unfold getKeysLessThanLoop
    split_ifs with more
    case neg =>
      obtain rfl : i_start = stop := by omega
      rw [largest]
      exact ⟨inside, before, after⟩
    generalize middle : (i_start + stop - 1) / 2 = i_center
    have within : i_center < objs.length := by omega
    have ascending : ∀ (i j : ℕ) (hi : i < objs.length) (hj : j < objs.length), i ≤ j →
        objs[i] ≤ objs[j] :=
      fun i j hi hj le => sorted.sortedLT.sortedLE.getElem_le_getElem_of_le le
    simp only [getElem?_eq_getElem within]
    split_ifs with less greater
    · exact ih (by omega) (by omega) within.le before
        (fun i h le => less.trans_le (ascending _ _ within h le)) rfl
    · exact ih (by omega) (by omega) inside
        (fun i h lt => (ascending _ _ h within (by omega)).trans greater.le) after largest
    · have same : objs[i_center] = key := le_antisymm (not_lt.mp less) (not_lt.mp greater)
      refine ⟨within, fun i h lt => ?_, fun i h le => ?_⟩
      · exact (ascending _ _ h within (Nat.le_of_lt_succ lt)).trans same.le
      · exact same.symm.le.trans_lt (pairwise_iff_getElem.mp sorted _ _ within h le)

/-- An ascending batch whose first object belongs to the child is cut after the
objects that belong to it. -/
theorem getKeysLessThan_cuts (sorted : objs.Pairwise (· < ·)) {first : κ}
    (head : objs.head? = some first) (belongs : first ≤ key) :
    ∃ num, getKeysLessThan key objs = some num ∧ 0 < num ∧ CutsAt key objs num := by
  have cuts : CutsAt key objs
      ((getKeysLessThanLoop key objs objs.length 0 objs.length none).getD objs.length) :=
    getKeysLessThanLoop_cuts sorted le_rfl (Nat.zero_le _) le_rfl
      nofun (fun i h le => absurd h (not_lt.mpr le)) rfl
  have num : (match getKeysLessThanLoop key objs objs.length 0 objs.length none with
      | some i_largest => if i_largest < objs.length then i_largest else objs.length
      | none => objs.length) =
        (getKeysLessThanLoop key objs objs.length 0 objs.length none).getD objs.length := by
    cases outcome : getKeysLessThanLoop key objs objs.length 0 objs.length none with
    | none => rfl
    | some i_largest =>
      have bound := cuts.inside
      rw [outcome, getD_some] at bound
      simp only [getD_some]
      split_ifs <;> omega
  have nonempty : 0 < objs.length := length_pos_of_mem (mem_of_head? head)
  have positive : (getKeysLessThanLoop key objs objs.length 0 objs.length none).getD objs.length ≠ 0 := by
    intro zero
    have beyond := cuts.after 0 nonempty zero.le
    rw [head?_eq_getElem?, getElem?_eq_getElem nonempty, some_inj] at head
    exact absurd belongs (not_le.mpr (head ▸ beyond))
  refine ⟨_, ?_, Nat.pos_of_ne_zero positive, cuts⟩
  simp [getKeysLessThan, num, if_neg positive]

/-- The objects handed to a child are those up to its separator. -/
theorem getAdjustedNumObjs_cuts (sorted : objs.Pairwise (· < ·)) {first : κ}
    (head : objs.head? = some first) {seps : List κ} {nkey : ℕ}
    (belongs : ∀ key, seps[nkey]? = some key → first ≤ key) :
    ∃ num, getAdjustedNumObjs seps nkey objs = some num ∧ 0 < num ∧ num ≤ objs.length ∧
      ∀ key, seps[nkey]? = some key → CutsAt key objs num := by
  have nonempty : 0 < objs.length := length_pos_of_mem (mem_of_head? head)
  have all : ∀ key, (∀ k ∈ objs, k ≤ key) → CutsAt key objs objs.length := fun key upto =>
    ⟨le_rfl, fun i h _ => upto _ (getElem_mem h), fun i h le => absurd h (not_lt.mpr le)⟩
  unfold getAdjustedNumObjs
  split_ifs with single
  · refine ⟨_, rfl, nonempty, le_rfl, fun key sep => all key fun k mem => ?_⟩
    obtain ⟨only, rfl⟩ := length_eq_one_iff.mp (le_antisymm single nonempty)
    obtain rfl := mem_singleton.mp mem
    exact some.inj head ▸ belongs key sep
  · cases sep : seps[nkey]? with
    | none => exact ⟨_, rfl, nonempty, le_rfl, nofun⟩
    | some key =>
      have last : objs.getLast? = some (objs.getLast (ne_nil_of_length_pos nonempty)) :=
        getLast?_eq_some_getLast _
      simp only [last]
      split_ifs with upto
      · refine ⟨_, rfl, nonempty, le_rfl, fun _ same => all _ fun k mem => ?_⟩
        cases same
        refine le_trans ?_ upto
        obtain ⟨i, h, rfl⟩ := getElem_of_mem mem
        rw [getLast_eq_getElem]
        exact sorted.sortedLT.sortedLE.getElem_le_getElem_of_le (Nat.le_sub_one_of_lt h)
      · obtain ⟨num, cut, positive, cuts⟩ := getKeysLessThan_cuts sorted head (belongs key sep)
        refine ⟨num, cut, positive, cuts.inside, fun _ same => ?_⟩
        exact some.inj same ▸ cuts

theorem getAdjustedNumObjs_cuts_pair :
    ∃ num, getAdjustedNumObjs [5] 0 [3, 5, 7] = some num ∧ 0 < num ∧ num ≤ 3 ∧
      ∀ key, [5][0]? = some key → CutsAt key [3, 5, 7] num :=
  getAdjustedNumObjs_cuts (by decide) rfl (by decide)

end

/-! ## One call of `btree_raw_mwrite_low` -/

/-- How far one call of `btree_insert_keys_leaf` gets with a number of objects. -/
structure LeafFill where
  status : ℕ → MputStatus
  written : ℕ → ℕ
  written_le : ∀ count, written count ≤ count

/-- A new leaf that `btree_raw_bulk_insert` fills. -/
structure NodeFill where
  fill : LeafFill
  /-- The leaf is not minimal and the parent has room for its anchor key. -/
  kept : Bool

/-- What `btree_raw_bulk_insert` meets. -/
structure BulkParts where
  nodesAvailable : Bool
  /-- `btree_split_child` made a right leaf. -/
  split : Bool
  right : LeafFill
  /-- The last object left belongs before the right leaf. -/
  below : Bool
  left : LeafFill
  /-- The status of `insert_key` for the left leaf's anchor key. -/
  anchored : MputStatus
  /-- The new leaves, until `get_new_node` fails. -/
  nodes : List NodeFill

/-- What `btree_raw_bulk_insert` and `btree_raw_mwrite_low` return: the place and
the number of the objects that are left, and how many were written. `wrote` are
the objects themselves. -/
structure MwriteResult where
  status : MputStatus
  objs : ℕ
  num_objs : ℕ
  written : ℕ
  wrote : List ℕ

/-- The loop of `btree_raw_bulk_insert` over new leaves, from `objs` on. -/
def fillNodes : List NodeFill → ℕ → ℕ → MputStatus → List ℕ → MwriteResult
  | [], objs, count, leaf_ret, wrote => ⟨leaf_ret, objs, count, 0, wrote⟩
  | node :: rest, objs, count, leaf_ret, wrote =>
    if count = 0 then ⟨leaf_ret, objs, count, 0, wrote⟩
    else if node.fill.status count ≠ .success then
      ⟨node.fill.status count, objs, count, 0, wrote⟩
    -- a minimal leaf, or one without room for its anchor, is given up again
    else if !node.kept then ⟨.success, objs, count, 0, wrote⟩
    else
      let written := node.fill.written count
      fillNodes rest (objs + written) (count - written) .success (wrote ++ range' objs written)

/-- The part of `btree_raw_bulk_insert` after the right leaf was filled with the
last objects, so that `count` are left, which starts with filling the left leaf. -/
def bulkInsertLeft (parts : BulkParts) (objs count : ℕ) (wrote : List ℕ) : MwriteResult :=
  let leaf_ret := parts.left.status count
  let written := parts.left.written count
  let objs' := objs + written
  let count' := count - written
  let wrote' := wrote ++ range' objs written
  if leaf_ret = .objectTooBig ∨ count' = 0 then ⟨parts.anchored, objs', count', 0, wrote'⟩
  else
    let filled := fillNodes parts.nodes objs' count' leaf_ret wrote'
    { filled with status := if filled.status.storageError then filled.status else .success }

/-- `btree_raw_bulk_insert`: `num_objs` is `not_written`. -/
def bulkInsert (parts : BulkParts) (objs count : ℕ) : MwriteResult :=
  if !parts.nodesAvailable then ⟨.success, objs, count, 0, []⟩
  else if !parts.split then ⟨.failure, objs, count, 0, []⟩
  else
    let right_ret := parts.right.status count
    if right_ret ≠ .success ∧ right_ret ≠ .objectTooBig then ⟨right_ret, objs, count, 0, []⟩
    else
      -- the right leaf takes the last objects
      let left := count - parts.right.written count
      let wrote := range' (objs + left) (parts.right.written count)
      if left = 0 ∨ right_ret = .objectTooBig ∨ !parts.below then
        ⟨parts.anchored, objs, left, 0, wrote⟩
      else if parts.left.status left ≠ .success ∧ parts.left.status left ≠ .objectTooBig then
        ⟨parts.left.status left, objs, count, 0, wrote⟩
      else bulkInsertLeft parts objs left wrote

/-- What `btree_raw_mwrite_low` meets. -/
structure MwriteParts where
  /-- The status of the descent: `err_exit` if it is an error. -/
  descent : MputStatus
  /-- How many of the objects belong to the leaf's subtree. -/
  trim : ℕ → ℕ
  trim_le : ∀ num, trim num ≤ num
  leaf : LeafFill
  /-- The leaf of the first object has room for it. -/
  progress : ∀ num, 0 < num → leaf.status (trim num) = .success ∨
    leaf.status (trim num) = .objectTooBig → 0 < leaf.written (trim num)
  parent : Bool
  bulk : BulkParts
  /-- The status of `deref_l1cache`. -/
  flush : MputStatus

/-- `BTREE_OBJECT_TOO_BIG` only ends the call. -/
def MputStatus.ended : MputStatus → MputStatus
  | .objectTooBig => .success
  | status => status

/-- The end of `btree_raw_mwrite_low`, at the leaf: fills it with the objects
that belong there, and more leaves if some are left. -/
def mwriteLeaf (parts : MwriteParts) (objs count : ℕ) : MwriteResult :=
  let ret := parts.leaf.status count
  let written := parts.leaf.written count
  let wrote := range' objs written
  if !ret.storageError ∧ ret ≠ .objectTooBig ∧ 1 < count - written ∧ parts.parent ∧ written ≠ 0 then
    let bulk := bulkInsert parts.bulk (objs + written) (count - written)
    ⟨bulk.status, bulk.objs, bulk.num_objs, written + (count - written - bulk.num_objs),
      wrote ++ bulk.wrote⟩
  else ⟨ret, objs + written, count - written, written, wrote⟩

/-- `btree_raw_mwrite_low`, as far as the objects are concerned. -/
def mwriteLow (parts : MwriteParts) (objs num_objs : ℕ) : MwriteResult :=
  if parts.descent ≠ .success then ⟨parts.descent, objs, num_objs, 0, []⟩
  else
    let result := mwriteLeaf parts objs (parts.trim num_objs)
    { result with status := if parts.flush ≠ .success then parts.flush else result.status.ended }

/-- What a call may do with the objects it is given when it succeeds: write a
first stretch that is not empty, leave a hole, and write a stretch after it. -/
def MwriteResult.Allowed (result : MwriteResult) (objs num_objs : ℕ) : Prop :=
  ∃ front hole back, 0 < front ∧ front + hole + back ≤ num_objs ∧ result.objs = objs + front ∧
    result.num_objs = hole ∧ result.written = front + back ∧
    result.wrote.Perm (range' objs front ++ range' (objs + front + hole) back)

/-- The first `front` and the last `back` of the objects were written. -/
structure MwriteResult.Takes (result : MwriteResult) (objs count front back : ℕ) : Prop where
  fits : front + back ≤ count
  objs_eq : result.objs = objs + front
  num_eq : result.num_objs = count - front - back
  wrote : result.wrote.Perm (range' objs front ++ range' (objs + (count - back)) back)

/-- The next objects after those written at the front were written, too. -/
theorem perm_extend {objs front more : ℕ} {wrote back : List ℕ}
    (perm : wrote.Perm (range' objs front ++ back)) :
    (wrote ++ range' (objs + front) more).Perm (range' objs (front + more) ++ back) := by
  rw [← range'_append_1, append_assoc]
  refine (perm.append_right _).trans ?_
  rw [append_assoc]
  exact perm_append_comm.append_left _

theorem fillNodes_takes (nodes : List NodeFill) {objs count front back : ℕ} (leaf_ret : MputStatus)
    {wrote : List ℕ} (fits : front + back ≤ count)
    (perm : wrote.Perm (range' objs front ++ range' (objs + (count - back)) back)) :
    ∃ front', (fillNodes nodes (objs + front) (count - front - back) leaf_ret wrote).Takes objs count
      front' back := by
  induction nodes generalizing front leaf_ret wrote with
  | nil => exact ⟨front, fits, rfl, rfl, perm⟩
  | cons node rest ih =>
    unfold fillNodes
    split_ifs
    iterate 3 · exact ⟨front, fits, rfl, rfl, perm⟩
    · have bound := node.fill.written_le (count - front - back)
      have left : count - front - back - node.fill.written (count - front - back) =
          count - (front + node.fill.written (count - front - back)) - back := by omega
      dsimp only
      rw [left, add_assoc objs]
      exact ih _ (by omega) (perm_extend perm)

theorem bulkInsertLeft_takes (parts : BulkParts) {objs count back : ℕ} (fits : back ≤ count) :
    ∃ front, (bulkInsertLeft parts objs (count - back)
      (range' (objs + (count - back)) back)).Takes objs count front back := by
  have bound := parts.left.written_le (count - back)
  have number : count - back - parts.left.written (count - back) =
      count - parts.left.written (count - back) - back := by omega
  have fits' : parts.left.written (count - back) + back ≤ count := by omega
  simp only [bulkInsertLeft, number]
  split
  · exact ⟨parts.left.written (count - back), fits', rfl, rfl, perm_append_comm⟩
  · obtain ⟨front, takes⟩ := fillNodes_takes parts.nodes (parts.left.status (count - back)) fits'
      perm_append_comm
    exact ⟨front, { takes with }⟩

/-- What `btree_raw_bulk_insert` takes, unless it fails. -/
theorem bulkInsert_takes {parts : BulkParts} {objs count : ℕ}
    (success : (bulkInsert parts objs count).status.ended = .success) :
    ∃ front back, (bulkInsert parts objs count).Takes objs count front back := by
  have failed : ∀ status : MputStatus, status ≠ .success ∧ status ≠ .objectTooBig →
      status.ended ≠ .success := by
    intro status bad ended
    cases status <;> simp [MputStatus.ended] at bad ended
  have bound := parts.right.written_le count
  simp only [bulkInsert] at success ⊢
  split_ifs at success ⊢ with available split right stop left
  · exact ⟨0, 0, Nat.zero_le _, rfl, rfl, List.Perm.refl _⟩
  · exact absurd success (failed .failure (by decide))
  · exact absurd success (failed _ right)
  · refine ⟨0, parts.right.written count, by omega, rfl, by simp, ?_⟩
    rw [range'_zero, nil_append]
  · exact absurd success (failed _ left)
  · obtain ⟨front, takes⟩ := bulkInsertLeft_takes parts bound
    exact ⟨front, _, takes⟩

theorem mwriteLeaf_allowed (parts : MwriteParts) {objs count : ℕ}
    (progress : parts.leaf.status count = .success ∨ parts.leaf.status count = .objectTooBig →
      0 < parts.leaf.written count)
    (success : (mwriteLeaf parts objs count).status.ended = .success) :
    (mwriteLeaf parts objs count).Allowed objs count := by
  have bound := parts.leaf.written_le count
  simp only [mwriteLeaf] at success ⊢
  split_ifs at success ⊢ with goesOn
  · obtain ⟨-, -, -, -, taken⟩ := goesOn
    obtain ⟨front, back, takes⟩ := bulkInsert_takes success
    generalize bulkInsert parts.bulk (objs + parts.leaf.written count)
      (count - parts.leaf.written count) = bulk at takes ⊢
    have fits := takes.fits
    have hole := takes.num_eq
    refine ⟨parts.leaf.written count + front, bulk.num_objs, back, by omega, by omega, ?_, rfl,
      by dsimp only; omega, ?_⟩
    · rw [takes.objs_eq, add_assoc]
    · have place : objs + parts.leaf.written count + (count - parts.leaf.written count - back) =
          objs + (parts.leaf.written count + front) + bulk.num_objs := by omega
      rw [← place, ← range'_append_1, append_assoc]
      exact takes.wrote.append_left _
  · have written : 0 < parts.leaf.written count := by
      apply progress
      cases status : parts.leaf.status count <;> simp [MputStatus.ended, status] at success ⊢
    exact ⟨parts.leaf.written count, count - parts.leaf.written count, 0, written, by omega, rfl, rfl,
      rfl, by simp⟩

/-- A call that succeeds does what it may do. -/
theorem mwriteLow_allowed (parts : MwriteParts) {objs num_objs : ℕ} (nonempty : 0 < num_objs)
    (success : (mwriteLow parts objs num_objs).status = .success) :
    (mwriteLow parts objs num_objs).Allowed objs num_objs := by
  unfold mwriteLow at success ⊢
  split_ifs at success ⊢ with descent flush
  · exact absurd success descent
  · exact absurd success flush
  · obtain ⟨front, hole, back, positive, fits, rest⟩ :=
      mwriteLeaf_allowed parts (parts.progress num_objs nonempty) success
    exact ⟨front, hole, back, positive, fits.trans (parts.trim_le num_objs), rest⟩

/-! ## The batch -/

/-- A way to write the objects of a batch, which may depend on a state and change
it, and keeps to what a successful call may do. -/
structure Mwrite (σ : Type) where
  run : σ → ℕ → ℕ → MwriteResult × σ
  contract : ∀ st objs num_objs, 0 < num_objs → (run st objs num_objs).1.status = .success →
    (run st objs num_objs).1.Allowed objs num_objs

/-- `btree_raw_mwrite_low` on a tree in which anything may happen. -/
def Mwrite.low {σ : Type} (meets : σ → ℕ → ℕ → MwriteParts × σ) : Mwrite σ where
  run st objs num_objs :=
    (mwriteLow (meets st objs num_objs).1 objs num_objs, (meets st objs num_objs).2)
  contract st objs num_objs nonempty success :=
    mwriteLow_allowed (meets st objs num_objs).1 nonempty success

variable {σ : Type} (mwrite : Mwrite σ)

/-- Where the loop of `btree_raw_mput_recursive` ends. -/
structure MputTurn (σ : Type) where
  result : MwriteResult
  s_objs : ℕ
  count : ℕ
  objs_written : ℕ
  st : σ

/-- What a batch comes to. -/
structure MputResult (σ : Type) where
  status : MputStatus
  objs_written : ℕ
  st : σ

/-- The loop of `btree_raw_mput_recursive`. -/
def mputLoop : ℕ → σ → ℕ → ℕ → ℕ → Option (MputTurn σ)
  | 0, _, _, _, _ => none
  | fuel + 1, st, objs, count, objs_written =>
    let (result, st') := mwrite.run st objs count
    let objs_written' := objs_written + result.written
    -- there is something yet to write and no hole
    if result.status = .success ∧ count - result.written ≠ 0 ∧
        result.objs - objs = result.written then
      mputLoop fuel st' result.objs (count - result.written) objs_written'
    else some ⟨result, objs, count, objs_written', st'⟩

/-- `btree_raw_mput_recursive`. -/
def mputRecursive : ℕ → σ → ℕ → ℕ → ℕ → Option (MputResult σ)
  | 0, _, _, _, _ => none
  | fuel + 1, st, objs, num_objs, objs_written =>
    if num_objs = 0 then some ⟨.success, objs_written, st⟩
    else do
      let turn ← mputLoop mwrite num_objs st objs num_objs objs_written
      let result := turn.result
      if result.status = .success ∧ turn.count - result.written ≠ 0 then
        if result.objs - turn.s_objs = result.written then none
        else do
          let right ← mputRecursive fuel turn.st (turn.s_objs + result.written + result.num_objs)
            (turn.count - result.written - result.num_objs) turn.objs_written
          if right.status = .success ∧ result.num_objs ≠ 0 then
            mputRecursive fuel right.st result.objs result.num_objs right.objs_written
          else some right
      else some ⟨result.status, turn.objs_written, turn.st⟩

/-- `btree_raw_mput`. Each level of the recursion has fewer objects than the one
above it. -/
def btreeRawMput (st : σ) (num_objs : ℕ) : Option (MputResult σ) :=
  mputRecursive mwrite (num_objs + 1) st 0 num_objs 0

/-! ## The calls that are made -/

/-- A call of `btree_raw_mwrite_low` that was made. -/
structure MwriteCall where
  objs : ℕ
  num_objs : ℕ
  result : MwriteResult

/-- The objects that a call passed to the tree, if it succeeded. -/
def MwriteCall.passed (call : MwriteCall) : List ℕ :=
  if call.result.status = .success then call.result.wrote else []

/-- The same calls, with all that were made kept in order beside the state. -/
def Mwrite.recording : Mwrite (σ × List MwriteCall) where
  run s objs num_objs :=
    let answer := mwrite.run s.1 objs num_objs
    (answer.1, answer.2, s.2 ++ [⟨objs, num_objs, answer.1⟩])
  contract s := mwrite.contract s.1

@[simp] theorem Mwrite.recording_run (s : σ × List MwriteCall) (objs num_objs : ℕ) :
    mwrite.recording.run s objs num_objs =
      ((mwrite.run s.1 objs num_objs).1, (mwrite.run s.1 objs num_objs).2,
        s.2 ++ [⟨objs, num_objs, (mwrite.run s.1 objs num_objs).1⟩]) := rfl

/-- The objects that the calls made so far have passed to the tree. -/
def passedBy (calls : List MwriteCall) : List ℕ := calls.flatMap MwriteCall.passed

omit mwrite in
theorem passedBy_success {calls : List MwriteCall} {objs num_objs : ℕ} {result : MwriteResult}
    (success : result.status = .success) :
    passedBy (calls ++ [⟨objs, num_objs, result⟩]) = passedBy calls ++ result.wrote := by
  simp [passedBy, MwriteCall.passed, success]

/-- Keeping the calls changes nothing of the loop. -/
theorem mputLoop_recording (fuel : ℕ) (s : σ × List MwriteCall) (objs count objs_written : ℕ) :
    (mputLoop mwrite.recording fuel s objs count objs_written).map
        (fun turn => { turn with st := turn.st.1 }) =
      mputLoop mwrite fuel s.1 objs count objs_written := by
  induction fuel generalizing s objs count objs_written with
  | zero => rfl
  | succ fuel ih =>
    rcases answer : mwrite.run s.1 objs count with ⟨result, st'⟩
    simp only [mputLoop, Mwrite.recording_run, answer]
    split_ifs with more
    · exact ih ..
    · rfl

/-- Keeping the calls changes nothing of what the batch comes to. -/
theorem mputRecursive_recording (fuel : ℕ) (s : σ × List MwriteCall)
    (objs num_objs objs_written : ℕ) :
    (mputRecursive mwrite.recording fuel s objs num_objs objs_written).map
        (fun result => { result with st := result.st.1 }) =
      mputRecursive mwrite fuel s.1 objs num_objs objs_written := by
  induction fuel generalizing s objs num_objs objs_written with
  | zero => rfl
  | succ fuel ih =>
    simp only [mputRecursive, bind_eq_bind, ← mputLoop_recording mwrite num_objs s]
    split_ifs with empty
    · rfl
    cases mputLoop mwrite.recording num_objs s objs num_objs objs_written with
    | none => rfl
    | some turn =>
      simp only [map_some, bind_some]
      split_ifs with more same
      · rfl
      · rw [← ih]
        cases mputRecursive mwrite.recording fuel turn.st _ _ turn.objs_written with
        | none => rfl
        | some right =>
          simp only [map_some, bind_some]
          split_ifs with goesOn
          · exact ih ..
          · rfl
      · rfl

/-- The loop comes to its end: what it passed on before its last call is the
stretch up to there, and the last call left a hole or nothing, or failed. -/
theorem mputLoop_spec {fuel : ℕ} {st : σ} {calls : List MwriteCall} {objs count objs_written : ℕ}
    (enough : count ≤ fuel) (nonempty : 0 < count) :
    ∃ turn, mputLoop mwrite.recording fuel (st, calls) objs count objs_written = some turn ∧
      (turn.result.status = .success →
        ∃ before, turn.s_objs = objs + before ∧ count = before + turn.count ∧
          turn.result.Allowed turn.s_objs turn.count ∧ (turn.count - turn.result.written ≠ 0 →
            turn.result.objs - turn.s_objs ≠ turn.result.written) ∧
          turn.objs_written = objs_written + before + turn.result.written ∧
          (passedBy turn.st.2).Perm (passedBy calls ++ range' objs before ++ turn.result.wrote)) := by
  induction fuel generalizing st calls objs count objs_written with
  | zero => omega
  | succ fuel ih =>
    unfold mputLoop
    have contract := mwrite.contract st objs count nonempty
    rcases answer : mwrite.run st objs count with ⟨result, st'⟩
    simp only [Mwrite.recording_run, answer] at contract ⊢
    split_ifs with more
    · obtain ⟨success, left, noHole⟩ := more
      obtain ⟨front, hole, back, positive, fits, place, -, written, wrote⟩ := contract success
      -- no hole: only the first stretch was written
      obtain rfl : back = 0 := by omega
      rw [range'_zero, append_nil] at wrote
      have stretch : result.written = front := by omega
      rw [stretch, place] at *
      obtain ⟨turn, runs, spec⟩ := @ih st' (calls ++ [⟨objs, count, result⟩]) (objs + front)
        (count - front) (objs_written + front) (by omega) (by omega)
      refine ⟨turn, runs, fun success' => ?_⟩
      obtain ⟨before, start, split, allowed, holes, total, perm⟩ := spec success'
      refine ⟨front + before, by omega, by omega, allowed, holes, by omega, perm.trans ?_⟩
      rw [passedBy_success success, ← range'_append_1]
      simp only [append_assoc]
      exact (wrote.append_right _).append_left _
    · refine ⟨_, rfl, fun success => ⟨0, rfl, (zero_add _).symm, contract success, ?_, rfl, ?_⟩⟩
      · exact fun left noHole => more ⟨success, left, noHole⟩
      · dsimp only
        rw [passedBy_success success, range'_zero, append_nil]

omit mwrite in
/-- The stretches of one turn, what comes after them and the hole between them
make up the batch. -/
theorem stretches_perm (objs before front hole back tail : ℕ) :
    (range' objs before ++ (range' (objs + before) front ++
        range' (objs + before + front + hole) back) ++
        range' (objs + before + front + hole + back) tail ++
        range' (objs + before + front) hole).Perm
      (range' objs (before + front + hole + back + tail)) := by
  rw [← range'_append_1, ← range'_append_1, ← range'_append_1, ← range'_append_1]
  simp only [append_assoc, ← add_assoc]
  refine (List.Perm.append_left _ (List.Perm.append_left _ ?_))
  rw [← append_assoc]
  exact perm_append_comm

/-- All objects of a part of the batch are passed on once, if that succeeds. -/
theorem mputRecursive_spec {fuel : ℕ} {s : σ × List MwriteCall} {objs num_objs objs_written : ℕ}
    (enough : num_objs < fuel) :
    ∃ result, mputRecursive mwrite.recording fuel s objs num_objs objs_written = some result ∧
      (result.status = .success → result.objs_written = objs_written + num_objs ∧
        (passedBy result.st.2).Perm (passedBy s.2 ++ range' objs num_objs)) := by
  induction fuel generalizing s objs num_objs objs_written with
  | zero => cases enough
  | succ fuel ih =>
    unfold mputRecursive
    split_ifs with empty
    · refine ⟨_, rfl, fun _ => ⟨by rw [empty, add_zero], ?_⟩⟩
      rw [empty, range'_zero, append_nil]
    obtain ⟨turn, loops, spec⟩ := mputLoop_spec mwrite le_rfl (Nat.pos_of_ne_zero empty)
    rw [loops]
    simp only [bind_eq_bind, bind_some]
    split_ifs with more same
    · exact absurd same ((spec more.1).choose_spec.2.2.2.1 more.2)
    · obtain ⟨before, start, split, ⟨front, hole, back, positive, fits, place, rest, written, wrote⟩, -,
        total, perm⟩ := spec more.1
      -- the part after the last stretch first, then the hole
      obtain ⟨right, runsRight, specRight⟩ := @ih turn.st
        (turn.s_objs + turn.result.written + turn.result.num_objs)
        (turn.count - turn.result.written - turn.result.num_objs) turn.objs_written (by omega)
      have tail : turn.count - turn.result.written - turn.result.num_objs =
          turn.count - front - hole - back := by omega
      have count : num_objs = before + front + hole + back + (turn.count - front - hole - back) := by
        omega
      have last : turn.s_objs + turn.result.written + turn.result.num_objs =
          objs + before + front + hole + back := by omega
      -- what has been passed on once the part after the stretches is done
      have passedRight : right.status = .success → (passedBy right.st.2).Perm (passedBy s.2 ++
          (range' objs before ++ (range' (objs + before) front ++
            range' (objs + before + front + hole) back) ++
            range' (objs + before + front + hole + back) (turn.count - front - hole - back))) := by
        intro success
        refine (specRight success).2.trans ?_
        rw [tail, last]
        refine (List.Perm.append_right _ perm).trans ?_
        rw [start] at wrote
        simp only [append_assoc]
        refine List.Perm.append_left _ (List.Perm.append_left _ ?_)
        rw [← append_assoc]
        exact wrote.append_right _
      rw [runsRight]
      simp only [bind_some]
      split_ifs with goesOn
      · obtain ⟨success, holes⟩ := goesOn
        obtain ⟨result, runs, specHole⟩ := @ih right.st turn.result.objs turn.result.num_objs
          right.objs_written (by omega)
        refine ⟨result, runs, fun success' => ⟨?_, ?_⟩⟩
        · have totalRight := (specRight success).1
          have totalHole := (specHole success').1
          omega
        · refine (specHole success').2.trans ?_
          rw [place, rest, start, count]
          refine ((passedRight success).append_right _).trans ?_
          rw [append_assoc]
          exact (stretches_perm ..).append_left _
      · refine ⟨right, rfl, fun success => ⟨?_, ?_⟩⟩
        · have totalRight := (specRight success).1
          have closed : turn.result.num_objs = 0 := by
            by_contra holes
            exact goesOn ⟨success, holes⟩
          omega
        · obtain rfl : hole = 0 := by
            by_contra holes
            exact goesOn ⟨success, rest ▸ holes⟩
          refine (passedRight success).trans ?_
          rw [count]
          refine List.Perm.append_left _ ?_
          simpa only [range'_zero, append_nil] using
            stretches_perm objs before front 0 back (turn.count - front - 0 - back)
    · refine ⟨_, rfl, fun success => ?_⟩
      obtain ⟨before, start, split, ⟨front, hole, back, positive, fits, place, rest, written, wrote⟩, -,
        total, perm⟩ := spec success
      have done : turn.count - turn.result.written = 0 := by
        by_contra left
        exact more ⟨success, left⟩
      obtain rfl : hole = 0 := by omega
      have count : num_objs = before + front + 0 + back + 0 := by omega
      refine ⟨by dsimp only; omega, perm.trans ?_⟩
      rw [append_assoc, count]
      rw [start] at wrote
      refine List.Perm.append_left _ (((wrote.append_left _).trans ?_))
      simpa only [range'_zero, append_nil] using stretches_perm objs before front 0 back 0

/-- A batch of any size is worked through to an end. If that is success, every
object was passed to the tree by one of the successful calls of
`btree_raw_mwrite_low` that were made, and by one only, and `objs_written` is their
number. -/
theorem mput_covers_batch (st : σ) (num_objs : ℕ) :
    ∃ result calls, btreeRawMput mwrite st num_objs = some result ∧
      btreeRawMput mwrite.recording (st, []) num_objs =
        some ⟨result.status, result.objs_written, result.st, calls⟩ ∧
      (result.status = .success → result.objs_written = num_objs ∧
        (passedBy calls).Perm (range num_objs)) := by
  obtain ⟨⟨status, objs_written, st', calls⟩, runs, spec⟩ :=
    @mputRecursive_spec σ mwrite (num_objs + 1) (st, []) 0 num_objs 0 (Nat.lt_succ_self _)
  refine ⟨⟨status, objs_written, st'⟩, calls, ?_, runs, fun success => ?_⟩
  · rw [btreeRawMput, ← mputRecursive_recording mwrite _ (st, []), runs]
    rfl
  · obtain ⟨total, perm⟩ := spec success
    rw [zero_add] at total
    rw [← range_eq_range'] at perm
    exact ⟨total, perm⟩

end Zetascale.Btree
