import Zetascale.VarLeaf.Rewrite

/-!
# The operations on a leaf

What the node of an operation is put together from, as lists of placed entries,
and what `btree_leaf_remove_key_index` leaves: entries that are well placed
again. An operation fails when what it leaves does not fit.
-/

namespace Zetascale.VarLeaf

open Btree FrontCoding List Option Placed Extents

/-! ## What is copied -/

variable {cfg : LeafConfig} {ps done rest : List Placed} {hdrs : List EntryHeader}
  {prev : Option Placed} {p : Placed}

section

variable (split : ps = done ++ rest)

include split

/-- The cells before an index. -/
theorem areaBefore_eq (placed : WellPlaced cfg ps) :
    areaBefore cfg (render ps) done.length = some (areaOf done) := by
  subst split
  induction done using reverseRecOn with
  | nil => rfl
  | append_singleton done p =>
    have around : (done ++ [p]) ++ rest = done ++ p :: rest := by simp
    have sound : Sound cfg p.entry := placed.sound p (by simp)
    have upTo : (p.header (bytesOf done)).headerOffset +
        getKeyMetaSpaceUsed cfg (p.header (bytesOf done)).metaType p.keyMeta =
          total Cell.size (areaOf (done ++ [p])) := by
      rw [show (p.header (bytesOf done)).metaType = p.keyMeta.type from rfl,
        ← cell_size sound]
      simp only [header, areaOf_append, total_append, areaOf_cons,
        total_cons]
      rfl
    have area : (render ((done ++ [p]) ++ rest)).area = areaOf (done ++ [p]) ++ areaOf rest :=
      areaOf_append _ _
    rw [length_append, length_singleton]
    unfold areaBefore
    simp only [WellPlaced.slot around, placed.getMeta around, bind_eq_bind, bind_some, upTo, area]
    exact before_total Cell.size_pos _ _

/-- The cells from an index on. -/
theorem areaFrom_eq : areaFrom (render ps) done.length = some (areaOf rest) := by
  subst split
  unfold areaFrom
  cases rest with
  | nil => simp [areaOf]
  | cons p rest =>
    have header := (reads_render (done ++ p :: rest)).header
    have area : (render (done ++ p :: rest)).area = areaOf done ++ areaOf (p :: rest) :=
      areaOf_append _ _
    rw [if_neg (by simp)]
    simp only [header, area, bind_eq_bind, bind_some]
    exact after_total Cell.size_pos _ _

theorem areaFrom_drop {count : ℕ} (le : count ≤ rest.length) :
    areaFrom (render ps) (done.length + count) = some (areaOf (rest.drop count)) := by
  have later : ps = (done ++ rest.take count) ++ rest.drop count := by
    rw [split, append_assoc, take_append_drop]
  have copied := areaFrom_eq later
  rw [length_append, length_take_of_le le] at copied
  exact copied

theorem headers_take : (render ps).headers.take done.length = headersFrom 0 done := by
  rw [split, render, headersFrom_append, take_left' (headersFrom_length 0 done)]

theorem headers_drop : (render ps).headers.drop done.length = headersFrom (bytesOf done) rest := by
  rw [split, render, headersFrom_append, drop_left' (headersFrom_length 0 done), zero_add]

omit split in
/-- The headers of the copied entries get their types, the others keep theirs. -/
theorem typed_setMetaTypes {run : List Placed} (typed : Typed hdrs rest)
    (count : run.length ≤ rest.length)
    (same : run.map Placed.entry = (rest.take run.length).map Placed.entry) :
    Typed (setMetaTypes hdrs (areaOf run)) (run ++ rest.drop run.length) := by
  induction run generalizing hdrs rest with
  | nil =>
    cases hdrs <;> exact typed
  | cons q run ih =>
    cases rest with
    | nil => simp at count
    | cons p rest =>
      cases hdrs with
      | nil => exact absurd typed (by simp [Typed])
      | cons hdr hdrs =>
        obtain ⟨type, typedRest⟩ := cons.inj typed
        simp only [length_cons, take_succ_cons, map_cons, cons.injEq] at same
        have next := ih typedRest (by simpa using count) same.2
        simp only [Prod.mk.injEq] at type
        refine congrArg₂ cons (Prod.ext ?_ ?_) next
        · exact keyMetaToKeyMetax_type _
        · exact type.2.trans (congrArg Entry.tombstone same.1.symm)

end

/-! ## The new node -/

section

variable {fresh bulk : List Placed}

/-- What fits into a leaf does not overflow its fields of 16 bits. -/
theorem small_of_fits (fits : spaceOf ps ≤ cfg.nodesizeLessHdr) :
    bytesOf ps < 2 ^ 16 ∧ ps.length < 2 ^ 15 := by
  have largest := cfg.le_max
  simp only [spaceOf, sizeofEntryHeader, BTREE_MAX_NODE_SIZE, sizeofRawNode] at *
  omega

/-- A node that was put together in the buffer is stored, and its offsets and
references are brought up to date. -/
theorem store_eq (typed : Typed hdrs (fresh ++ bulk))
    (chained : Chained none (fresh ++ bulk)) (sound : ∀ p ∈ fresh ++ bulk, Sound cfg p.entry)
    (base shift : ℤ) : ((⟨hdrs, areaOf (fresh ++ bulk)⟩ : LeafNode).store cfg).bind (fun stored =>
      (btreeLeafAdjustOffsets cfg stored).bind fun adjusted =>
        btreeLeafAdjustPrefixIdxes base shift (adjusted.nkeys - fresh.length) fresh.length
          adjusted) =
      if spaceOf (fresh ++ bulk) ≤ cfg.nodesizeLessHdr
      then some (render (fresh ++ bulk.map (Placed.adjust base shift))) else none := by
  have count : hdrs.length = (fresh ++ bulk).length := by simpa using congrArg length typed
  have used : (⟨hdrs, areaOf (fresh ++ bulk)⟩ : LeafNode).usedSpace = spaceOf (fresh ++ bulk) := by
    unfold LeafNode.usedSpace LeafNode.nkeys spaceOf
    rw [count]
    rfl
  unfold LeafNode.store
  rw [used]
  split_ifs with fits
  · rw [bind_some, btreeLeafAdjustOffsets_eq typed chained sound (small_of_fits fits).1, bind_some,
      render_nkeys, length_append, Nat.add_sub_cancel_left]
    exact btreeLeafAdjustPrefixIdxes_eq base shift fresh bulk
  · rfl

/-- The entries copied in bulk start with one that has no prefix. -/
def StartsBare (bulk : List Placed) : Prop :=
  ∀ p rest, bulk = p :: rest → p.compact = false ∧ p.prefixLen = 0

/-- Such entries can stand behind any others. -/
theorem StartsBare.chained (starts : StartsBare bulk) {prev' : Option Placed}
    (chained : Chained prev bulk) : Chained prev' bulk := by
  cases bulk with
  | nil => trivial
  | cons p bulk =>
    refine ⟨fun compact => ?_, chained.2⟩
    rw [(starts p bulk rfl).1] at compact
    exact absurd compact (by decide)

variable {lo : ℕ} {base shift : ℤ}

/-- The references of entries after one with no prefix are shifted with it. -/
theorem Linked.map_adjust {lo' : ℕ} (linked : Linked (lo + 1) (some p) bulk)
    (bare : p.prefixLen = 0) (moved : ∀ k : ℕ, lo ≤ k → k < lo + bulk.length →
      base < k ∧ ((k + shift) % 2 ^ 16).toNat = k - lo + lo') :
    bulk.map (Placed.adjust base shift) = bulk.map (Placed.rebase lo lo') := by
  have refs := linked.references le_rfl (.inl bare)
  refine map_congr_left fun q mem => ?_
  by_cases noFront : q.prefixLen = 0
  · rw [Placed.adjust_bare noFront, Placed.rebase_bare noFront]
  · have shares := Nat.pos_of_ne_zero noFront
    have bounds := refs q mem shares
    have target := moved q.prefixIdx bounds.1 bounds.2
    simp only [Placed.adjust, Placed.rebase, shares, target.1, target.2, and_self, if_true,
      if_neg noFront]

/-- Entries copied in bulk, with their references shifted, may follow anything. -/
theorem StartsBare.linked (starts : StartsBare bulk) {lo' : ℕ} {prev' : Option Placed}
    (linked : Linked lo prev bulk) (moved : ∀ k : ℕ, lo ≤ k → k < lo + bulk.length →
      base < k ∧ ((k + shift) % 2 ^ 16).toNat = k - lo + lo') :
    Linked lo' prev' (bulk.map (Placed.adjust base shift)) := by
  cases bulk with
  | nil => trivial
  | cons p bulk =>
    obtain ⟨written, noFront⟩ := starts p bulk rfl
    have bare : p.Bare := by
      cases prev with
      | none => exact linked.1.1
      | some q => exact linked.1.1.resolve_right fun share => share.positive.ne' noFront
    have same := linked.2.map_adjust noFront fun k above below =>
      moved k above (by rw [length_cons]; omega)
    have rest : Linked (lo - lo + lo' + 1) (some (p.rebase lo lo'))
        (bulk.map (Placed.rebase lo lo')) := linked.2.rebase le_rfl (.inl noFront)
    rw [Nat.sub_self, zero_add, rebase_bare noFront, ← same] at rest
    rw [map_cons, adjust_bare noFront]
    refine ⟨?_, rest⟩
    cases prev' with
    | none => exact ⟨bare, written⟩
    | some q => exact ⟨.inl bare, fun compact => absurd compact (by rw [written]; decide)⟩

@[simp] theorem spaceOf_adjust (base shift : ℤ) (ps : List Placed) :
    spaceOf (ps.map (Placed.adjust base shift)) = spaceOf ps := by
  induction ps with
  | nil => rfl
  | cons p ps ih => rw [map_cons, spaceOf_cons, spaceOf_cons, ih, adjust_size]

/-- Fresh entries and a bulk, stored and adjusted, are written down if they fit. -/
theorem store_spliced (typed : Typed hdrs (fresh ++ bulk))
    (placed : WellPlaced cfg fresh) (starts : StartsBare bulk)
    (linked : Linked lo prev bulk) (sound : ∀ p ∈ bulk, Sound cfg p.entry) (base shift : ℤ) :
    ((⟨hdrs, areaOf (fresh ++ bulk)⟩ : LeafNode).store cfg).bind (fun stored =>
      (btreeLeafAdjustOffsets cfg stored).bind fun adjusted =>
        btreeLeafAdjustPrefixIdxes base shift (adjusted.nkeys - fresh.length) fresh.length
          adjusted) =
      if spaceOf (fresh ++ bulk.map (Placed.adjust base shift)) ≤ cfg.nodesizeLessHdr
      then some (render (fresh ++ bulk.map (Placed.adjust base shift))) else none := by
  have chained : Chained none (fresh ++ bulk) :=
    chained_append.mpr ⟨placed.linked.chained, starts.chained linked.chained⟩
  have sounds : ∀ p ∈ fresh ++ bulk, Sound cfg p.entry := fun p mem =>
    (mem_append.mp mem).elim (placed.sound p) (sound p)
  rw [store_eq typed chained sounds, spaceOf_append, spaceOf_append, spaceOf_adjust]

/-- They are well placed if the bulk is shifted to where it is now. -/
theorem wellPlaced_spliced (placed : WellPlaced cfg fresh) (starts : StartsBare bulk)
    (linked : Linked lo prev bulk) (sound : ∀ p ∈ bulk, Sound cfg p.entry)
    (moved : ∀ k : ℕ, lo ≤ k → k < lo + bulk.length →
      base < k ∧ ((k + shift) % 2 ^ 16).toNat = k - lo + fresh.length) :
    WellPlaced cfg (fresh ++ bulk.map (Placed.adjust base shift)) where
  sound := forall_mem_append.mpr ⟨placed.sound, forall_mem_map.mpr sound⟩
  linked := by
    rw [linked_append, zero_add]
    exact ⟨placed.linked, starts.linked linked moved⟩

end

/-! ## What stands around -/

theorem lastOr_mem (last : lastOr none ps = some p) : p ∈ ps := by
  induction ps using reverseRecOn with
  | nil => exact absurd last (by simp [lastOr])
  | append_singleton ps q =>
    rw [lastOr_concat] at last
    simp [some.inj last]

theorem length_pos_of_lastOr (last : lastOr none ps ≠ none) : 0 < ps.length := by
  cases ps with
  | nil => exact absurd rfl last
  | cons p ps => exact Nat.succ_pos _

section

variable (opt : SpaceOpt)

/-- What is not written anew starts without a prefix. -/
theorem startsBare_drop_recode (index : ℕ) (prev : Option Placed) (ps : List Placed) :
    StartsBare (ps.drop (recode opt index prev ps).length) :=
  fun _ _ rest => recode_rest opt rest

theorem recode_sound {index : ℕ} (sound : ∀ p ∈ rest, Sound cfg p.entry) :
    ∀ p ∈ recode opt index prev rest, Sound cfg p.entry := by
  intro p mem
  have same : p.entry ∈ (recode opt index prev rest).map Placed.entry :=
    mem_map_of_mem mem
  rw [recode_entries] at same
  obtain ⟨q, mem', entry⟩ := mem_map.mp same
  exact entry ▸ sound q (mem_of_mem_take mem')

variable (placed : WellPlaced cfg ps) (split : ps = done ++ rest)

include placed split

theorem lastOr_sound : ∀ p, lastOr none done = some p → Sound cfg p.entry :=
  fun p last => placed.sound p (split ▸ mem_append_left _ (lastOr_mem last))

/-- The entries copied in bulk, where they were. -/
theorem bulk_linked {count : ℕ} (le : count ≤ rest.length) :
    ∃ prev, Linked (done.length + count) prev (rest.drop count) := by
  have later : ps = (done ++ rest.take count) ++ rest.drop count := by
    rw [split, append_assoc, take_append_drop]
  have linked := (linked_append.mp (later ▸ placed.linked)).2
  rw [zero_add, length_append, length_take_of_le le] at linked
  exact ⟨_, linked⟩

theorem done_linked : Linked 0 none done :=
  (linked_append.mp (split ▸ placed.linked)).1

theorem rest_sound : ∀ p ∈ rest, Sound cfg p.entry :=
  fun p mem => placed.sound p (split ▸ mem_append_right _ mem)

end

/-! ## Removal -/

/-- The entries written anew after an entry between `done` and `rest` is gone. -/
def removeRun (opt : SpaceOpt) (done rest : List Placed) : List Placed :=
  recode opt done.length (lastOr none done) rest

/-- What a leaf holds after an entry between `done` and `rest` is removed. -/
def removed (opt : SpaceOpt) (done rest : List Placed) : List Placed :=
  (done ++ removeRun opt done rest) ++
    (rest.drop (removeRun opt done rest).length).map (Placed.adjust done.length (-1))

variable (opt : SpaceOpt)

theorem removeRun_length_le (done rest : List Placed) :
    (removeRun opt done rest).length ≤ rest.length :=
  recode_length_le opt _ _ _

variable (placed : WellPlaced cfg ps)

include placed

/-- The entry the run is written behind. -/
theorem entryBefore_eq (split : ps = done ++ rest) : entryBefore (render ps) done.length =
      some ((lastOr none done).map fun q => (q.entry.key, q.keyMeta)) := by
  subst split
  induction done using reverseRecOn with
  | nil => rfl
  | append_singleton done q =>
    have around : (done ++ [q]) ++ rest = done ++ q :: rest := by simp
    rw [length_append, length_singleton, lastOr_concat]
    unfold entryBefore
    simp only [placed.getMeta around, placed.getNthKeyInfo around, bind_eq_bind,
      bind_some, infoOf_key]
    rfl

variable (split : ps = done ++ p :: rest)

include split

/-- The run behind a removed entry. -/
theorem copyImpacted_removed :
    copyImpactedKeysToTmpBuf opt cfg (render ps) (done.length + 1) (done.length - 1)
      ((lastOr none done).map fun q => (q.entry.key, q.keyMeta)) =
        some (areaOf (removeRun opt done rest)) := by
  have around : ps = (done ++ [p]) ++ rest := by simp [split]
  have start : (done ++ [p]).length = done.length + 1 := by simp
  unfold removeRun
  rw [← start]
  cases last : lastOr none done with
  | none =>
    have first : done = [] := by
      induction done using reverseRecOn with
      | nil => rfl
      | append_singleton done q => simp [lastOr_concat] at last
    rw [first] at around ⊢
    exact copyImpacted_first opt placed around _
  | some q =>
    have copied := copyImpacted_after opt placed around q (done.length - 1)
    have positive : 0 < done.length := length_pos_of_lastOr (by simp [last])
    rw [Nat.sub_add_cancel positive] at copied
    exact copied

/-- The node as the code builds it, with offsets still to be adjusted. -/
theorem removeTmpNode_eq : ∃ hdrs, Typed hdrs ((done ++ removeRun opt done rest) ++
        rest.drop (removeRun opt done rest).length) ∧
      removeTmpNode opt cfg (render ps) done.length =
        some ⟨⟨hdrs, areaOf ((done ++ removeRun opt done rest) ++
          rest.drop (removeRun opt done rest).length)⟩,
          (done ++ removeRun opt done rest).length⟩ := by
  have around : ps = (done ++ [p]) ++ rest := by simp [split]
  have bulk := areaFrom_drop around (removeRun_length_le opt done rest)
  have start : (done ++ [p]).length = done.length + 1 := by simp
  have count : (areaOf (removeRun opt done rest)).length = (removeRun opt done rest).length :=
    length_map _
  have later := typed_setMetaTypes (typed_headersFrom (bytesOf (done ++ [p])) rest)
    (removeRun_length_le opt done rest) (recode_entries opt _ _ _)
  rw [start] at bulk
  refine ⟨headersFrom 0 done ++ setMetaTypes (headersFrom (bytesOf (done ++ [p])) rest)
    (areaOf (removeRun opt done rest)), ?_, ?_⟩
  · rw [append_assoc]
    exact (typed_headersFrom 0 done).append later
  · have hdrs := headers_drop around
    rw [start] at hdrs
    unfold removeTmpNode
    simp only [areaBefore_eq split placed, entryBefore_eq placed split,
      copyImpacted_removed opt placed split, headers_take split, hdrs, count, bulk,
      bind_eq_bind, bind_some]
    simp

theorem removeRest_sound : ∀ q ∈ rest, Sound cfg q.entry :=
  fun q mem => rest_sound placed split q (mem_cons_of_mem _ mem)

/-- What comes before the bulk is well placed. -/
theorem removeFresh_wellPlaced : WellPlaced cfg (done ++ removeRun opt done rest) where
  sound := forall_mem_append.mpr
    ⟨fun q early => placed.sound q (split ▸ mem_append_left _ early),
      recode_sound opt (removeRest_sound placed split)⟩
  linked := by
    rw [linked_append, zero_add]
    exact ⟨done_linked placed split, recode_linked opt length_pos_of_lastOr
      (lastOr_sound placed split) (removeRest_sound placed split)⟩

/-- The code removes the entry if the result fits. -/
theorem btreeLeafRemoveKeyIndex_eq : btreeLeafRemoveKeyIndex opt cfg (render ps) done.length =
      if spaceOf (removed opt done rest) ≤ cfg.nodesizeLessHdr
      then some (render (removed opt done rest)) else none := by
  obtain ⟨hdrs, typed, tmp⟩ := removeTmpNode_eq opt placed split
  have around : ps = (done ++ [p]) ++ rest := by simp [split]
  obtain ⟨prev, linked⟩ := bulk_linked placed around (removeRun_length_le opt done rest)
  unfold btreeLeafRemoveKeyIndex
  simp only [tmp, bind_eq_bind, bind_some]
  exact store_spliced typed (removeFresh_wellPlaced opt placed split)
    (startsBare_drop_recode opt _ _ _) linked
    (fun q mem => removeRest_sound placed split q (mem_of_mem_drop mem)) _ _

end Zetascale.VarLeaf
