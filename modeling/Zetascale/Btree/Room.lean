import Zetascale.Btree.Reshape

/-!
# Room in the nodes

What holds of every node by itself, whatever its place in the tree: sequence
numbers are positive, and keys are short and fit in their node. The splits keep
both, and as long as they hold no split gets stuck.
-/

namespace Zetascale.Btree

open List Option

variable {κ : Type}

/-! ## Sequence numbers -/

/-- A property of all sequence numbers of a node. -/
def Node.Seqnos (P : ℕ → Prop) : Node κ → Prop
  | .leaf _ entries => ∀ e ∈ entries, P e.seqno
  | .nonleaf _ _ keys _ => ∀ k ∈ keys, P k.seqno

/-- A property of all sequence numbers in the tree. -/
def Tree.Seqnos (P : ℕ → Prop) (t : Tree κ) : Prop := ∀ id n, t.nodes id = some n → n.Seqnos P

/-- All sequence numbers of the tree are positive. `insert_key` looks for the
place of a separator with its sequence number less one. -/
abbrev Tree.Positive (t : Tree κ) : Prop := t.Seqnos (0 < ·)

variable {cfg : Config κ} {t t' : Tree κ} {h h' rightmost newId : ℕ} {back : List (Sep κ)}

section

variable {P : ℕ → Prop}

theorem repointed_seqnos (seqnos : ∀ k ∈ back, P k.seqno) :
    ∀ k ∈ (repointed back rightmost newId).1, P k.seqno := by
  cases back with
  | nil => simp [repointed]
  | cons x rest => simpa [repointed] using seqnos

theorem Tree.Seqnos.splitNodes (seqnos : t.Seqnos P) {c p : ℕ} {left right above : Node κ}
    (leftOk : left.Seqnos P) (rightOk : right.Seqnos P) (aboveOk : above.Seqnos P) :
    (t.splitNodes c left right p above).Seqnos P := by
  intro id n stored
  rw [Tree.splitNodes_nodes] at stored
  split_ifs at stored
  · exact some.inj stored ▸ aboveOk
  · exact some.inj stored ▸ leftOk
  · exact some.inj stored ▸ rightOk
  · exact seqnos id n stored

theorem Reshape.seqnos [LinearOrder κ] (change : Reshape cfg t h t' h') (seqnos : t.Seqnos P) :
    t'.Seqnos P := by
  cases change with
  | root =>
    intro id n stored
    rw [splitRoot_nodes] at stored
    split_ifs at stored
    · cases stored
      simp [Node.Seqnos]
    · exact seqnos id n stored
  | @nonleaf _ d sp _ _ _ front back _ _ _ c kl kr promoted hi split =>
    have parent := seqnos _ _ split.parentNode
    have node := seqnos _ _ split.childNode
    simp only [Node.Seqnos, mem_append, mem_cons] at parent node
    apply seqnos.splitNodes
    · exact fun k mem => node k (.inl mem)
    · exact fun k mem => node k (.inr (.inr mem))
    · intro k mem
      simp only [mem_append, mem_cons] at mem
      rcases mem with inFront | rfl | inBack
      · exact parent k (.inl inFront)
      · exact node promoted (.inr (.inl rfl))
      · exact repointed_seqnos (fun k mem => parent k (.inr mem)) k inBack
  | @leaf d sp _ _ _ front back next c l r last hi split =>
    have parent := seqnos _ _ split.parentNode
    have node := seqnos _ _ split.childNode
    simp only [Node.Seqnos, mem_append] at parent node
    apply seqnos.splitNodes
    · exact fun e mem => node e (.inl (mem_append.mp mem))
    · exact fun e mem => node e (.inr mem)
    · intro k mem
      simp only [mem_append, mem_cons] at mem
      rcases mem with inFront | rfl | inBack
      · exact parent k (.inl inFront)
      · exact node last (.inl (.inr (mem_singleton.mpr rfl)))
      · exact repointed_seqnos (fun k mem => parent k (.inr mem)) k inBack

end

/-! ## Sizes -/

/-- The keys of a node fit in it, and each is shorter than the limits. -/
def Node.Fits (cfg : Config κ) : Node κ → Prop
  | .leaf _ entries => btreeLeafUsedSpace cfg entries ≤ cfg.nodesizeLessHdr ∧
      ∀ e ∈ entries, cfg.Unwrapped (cfg.keylen e.key) e.datalen ∧ cfg.keylen e.key < cfg.maxKeySize
  | .nonleaf _ _ keys _ => vnodeUsedSpace cfg keys ≤ cfg.nodesizeLessHdr ∧
      ∀ k ∈ keys, cfg.keylen k.key < cfg.maxKeySize

/-- The sizes of the tree's nodes. Only the root may be a non-leaf without
keys. -/
structure Tree.Roomy (cfg : Config κ) (t : Tree κ) : Prop where
  fits : ∀ id n, t.nodes id = some n → n.Fits cfg
  keyed : ∀ id level next rightmost,
    t.nodes id = some (.nonleaf level next [] rightmost) → id = t.rootid

/-- Four separators fit in a node, with room to spare. -/
theorem Sep.size_le {s : Sep κ} (short : cfg.keylen s.key < cfg.maxKeySize) :
    4 * (s.size cfg + 5) ≤ cfg.nodesizeLessHdr := by
  have four := cfg.fourKeys
  simp only [Sep.size, sizeofVkey, sizeofVlkey] at *
  omega

theorem repointed_short (short : ∀ k ∈ back, cfg.keylen k.key < cfg.maxKeySize) :
    ∀ k ∈ (repointed back rightmost newId).1, cfg.keylen k.key < cfg.maxKeySize := by
  cases back with
  | nil => simp [repointed]
  | cons x rest => simpa [repointed] using short

/-- A parent with the separator of a split in it. -/
theorem fits_parent {plevel pnext prightmost : ℕ} {front : List (Sep κ)} {s : Sep κ}
    (parent : (Node.nonleaf plevel pnext (front ++ back) prightmost).Fits cfg)
    (short : cfg.keylen s.key < cfg.maxKeySize)
    (room : vnodeUsedSpace cfg (front ++ back) + s.size cfg ≤ cfg.nodesizeLessHdr) :
    (Node.nonleaf plevel pnext (front ++ s :: (repointed back prightmost newId).1)
      (repointed back prightmost newId).2).Fits cfg := by
  obtain ⟨-, shorts⟩ := parent
  constructor
  · simp only [vnodeUsedSpace_append, vnodeUsedSpace_cons, repointed_size] at room ⊢
    omega
  · intro k mem
    simp only [mem_append, mem_cons] at mem shorts
    rcases mem with inFront | rfl | inBack
    · exact shorts k (.inl inFront)
    · exact short
    · exact repointed_short (fun k mem => shorts k (.inr mem)) k inBack

theorem Tree.Roomy.splitNodes (roomy : t.Roomy cfg) {c p : ℕ} {left right above : Node κ}
    (leftOk : left.Fits cfg) (rightOk : right.Fits cfg) (aboveOk : above.Fits cfg)
    (keyed : ∀ n ∈ [left, right, above], ∀ level next rightmost,
      n ≠ .nonleaf level next [] rightmost) : (t.splitNodes c left right p above).Roomy cfg := by
  simp only [mem_cons, not_mem_nil, or_false, forall_eq_or_imp, forall_eq] at keyed
  obtain ⟨leftKeyed, rightKeyed, aboveKeyed⟩ := keyed
  constructor
  · intro id n stored
    rw [Tree.splitNodes_nodes] at stored
    split_ifs at stored
    · exact some.inj stored ▸ aboveOk
    · exact some.inj stored ▸ leftOk
    · exact some.inj stored ▸ rightOk
    · exact roomy.fits id n stored
  · intro id level next rightmost stored
    rw [Tree.splitNodes_nodes] at stored
    split_ifs at stored
    · exact absurd (some.inj stored) (aboveKeyed level next rightmost)
    · exact absurd (some.inj stored) (leftKeyed level next rightmost)
    · exact absurd (some.inj stored) (rightKeyed level next rightmost)
    · exact roomy.keyed id level next rightmost stored

/-- The splits of a descent keep the sizes. -/
theorem Reshape.roomy [LinearOrder κ] (change : Reshape cfg t h t' h') (roomy : t.Roomy cfg) :
    t'.Roomy cfg := by
  cases change with
  | root keyed =>
    constructor
    · intro id n stored
      rw [splitRoot_nodes] at stored
      split_ifs at stored
      · cases stored
        simp [Node.Fits]
      · exact roomy.fits id n stored
    · intro id level next rightmost stored
      rw [splitRoot_nodes] at stored
      split_ifs at stored with fresh
      · exact fresh
      · obtain rfl := roomy.keyed id level next rightmost stored
        exact absurd stored (keyed level next rightmost)
  | @nonleaf _ d sp _ _ _ front back _ _ _ c kl kr promoted hi split inner fits half past more =>
    have parent := roomy.fits _ _ split.parentNode
    obtain ⟨used, shorts⟩ := roomy.fits _ _ split.childNode
    simp only [vnodeUsedSpace_append, vnodeUsedSpace_cons, mem_append, mem_cons] at used shorts
    have short := shorts promoted (.inr (.inl rfl))
    have size := Sep.size_le short
    have left : kl ≠ [] := by
      rintro rfl
      rw [vnodeUsedSpace_nil] at past
      omega
    apply roomy.splitNodes
    · exact ⟨by omega, fun k mem => shorts k (.inl mem)⟩
    · exact ⟨by omega, fun k mem => shorts k (.inr (.inr mem))⟩
    · exact fits_parent parent short fits
    · simp [left, more]
  | @leaf d sp _ _ _ front back next c l r last hi split fits more =>
    have parent := roomy.fits _ _ split.parentNode
    obtain ⟨used, shorts⟩ := roomy.fits _ _ split.childNode
    simp only [btreeLeafUsedSpace_append, mem_append] at used shorts
    apply roomy.splitNodes
    · refine ⟨?_, fun e mem => shorts e (.inl (mem_append.mp mem))⟩
      rw [btreeLeafUsedSpace_append]
      omega
    · exact ⟨by omega, fun e mem => shorts e (.inr mem)⟩
    · exact fits_parent parent (shorts last (.inl (.inr (mem_singleton.mpr rfl)))).2 fits
    · simp

/-! ## Splits do not get stuck -/

variable {key : κ}

/-- What an object needs is hardly more than a quarter of a leaf. -/
theorem isFullIndex_used {entries : List (Entry κ)} {datalen index : ℕ}
    {key_exists : Bool} (short : cfg.Unwrapped (cfg.keylen key) datalen)
    (full : btreeLeafIsFullIndex cfg entries key datalen key_exists index = true) :
    cfg.nodesizeLessHdr < btreeLeafUsedSpace cfg entries + (cfg.nodesizeLessHdr / 4 + 8) := by
  have quarter := entrySize_le_of_unwrapped cfg short
  simp only [btreeLeafIsFullIndex] at full
  split_ifs at full with early present
  · rw [decide_eq_true_eq] at full
    cases found : entries[index]? with
    | none =>
      simp only [found] at full
      omega
    | some old =>
      have needed := updateBytesNeeded_le cfg (cfg.keylen key) old.datalen datalen
      simp only [found] at full
      omega
  · rw [decide_eq_true_eq] at full
    omega

theorem two_of_full {entries : List (Entry κ)} {datalen index : ℕ} {key_exists : Bool}
    {next : ℕ} (fits : (Node.leaf next entries).Fits cfg)
    (short : cfg.Unwrapped (cfg.keylen key) datalen)
    (full : btreeLeafIsFullIndex cfg entries key datalen key_exists index = true) :
    2 ≤ entries.length := by
  have used := isFullIndex_used short full
  have large := cfg.largeObjects
  obtain ⟨-, shorts⟩ := fits
  match entries with
  | [] =>
    rw [btreeLeafUsedSpace_nil] at used
    omega
  | [e] =>
    have quarter := entrySize_le_of_unwrapped cfg (shorts e (by simp)).1
    rw [btreeLeafUsedSpace_cons, btreeLeafUsedSpace_nil, Entry.size] at used
    omega
  | _ :: _ :: _ => simp

variable {keys : List (Sep κ)}

theorem room_of_not_full (full : isNodeFullNonLeaf cfg keys ≠ true)
    (short : cfg.keylen key < cfg.maxKeySize) :
    vnodeUsedSpace cfg keys + (sizeofVkey + cfg.keylen key) ≤ cfg.nodesizeLessHdr := by
  rw [isNodeFullNonLeaf, ne_eq, decide_eq_true_eq, not_lt] at full
  omega

theorem not_full_of_half (half : vnodeUsedSpace cfg keys ≤ cfg.nodesizeLessHdr / 2) :
    isNodeFullNonLeaf cfg keys = false := by
  have four := cfg.fourKeys
  rw [isNodeFullNonLeaf, decide_eq_false_iff_not, not_lt]
  simp only [sizeofVkey, sizeofVlkey] at four ⊢
  omega

theorem splitCopyCount_of_full {level next : ℕ}
    (fits : (Node.nonleaf level next keys rightmost).Fits cfg)
    (full : isNodeFullNonLeaf cfg keys = true) :
    splitCopyCount cfg (cfg.nodesizeLessHdr / 2) keys 0 ≠ 0 ∧
      splitCopyCount cfg (cfg.nodesizeLessHdr / 2) keys 0 < keys.length := by
  obtain ⟨-, shorts⟩ := fits
  have four := cfg.fourKeys
  rw [isNodeFullNonLeaf, decide_eq_true_eq] at full
  simp only [sizeofVkey, sizeofVlkey] at full four
  have nonempty : keys ≠ [] := by
    rintro rfl
    rw [vnodeUsedSpace_nil] at full
    omega
  obtain ⟨upto, le, passed⟩ := splitCopyCount_spec (cfg.nodesizeLessHdr / 2) keys 0
  constructor
  · intro zero
    have past := passed (by rw [zero]; exact length_pos_iff.mpr nonempty)
    simp [zero] at past
  · by_contra all
    have whole : splitCopyCount cfg (cfg.nodesizeLessHdr / 2) keys 0 = keys.length := by omega
    obtain ⟨front, last, rfl⟩ := (eq_nil_or_concat keys).resolve_left nonempty
    have small := upto front.length (by rw [whole]; simp)
    have size := Sep.size_le (shorts last (by simp))
    simp only [concat_eq_append, take_left, vnodeUsedSpace_append, vnodeUsedSpace_cons,
      vnodeUsedSpace_nil] at small full
    omega

end Zetascale.Btree
