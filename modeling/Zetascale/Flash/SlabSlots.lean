import Zetascale.Flash.Slabs

/-!
# Slots and the slabs in use

Which slabs of a shard are in use is what its calls returned and did not take back. The bitmaps of
the segments assigned to a class say the same, slot by slot, and a slot that is taken was clear. So
slabs in use never overlap, if they lie where the bitmaps say.
-/

namespace Zetascale.Flash.Slabs

open Zetascale.Stripes Function Finset Slabs.Geometry Shard Segment

variable {geo : Geometry} {c count : ℕ}

theorem slabBlksize_pos (c : ℕ) : 0 < slabBlksize c :=
  Nat.two_pow_pos c

theorem segmentSize_eq : segmentSize = 2 ^ 25 := rfl

theorem segmentBlks_pow (geo : Geometry) :
    ∃ k, geo.blkSize = 2 ^ k ∧ k ≤ 25 ∧ geo.segmentBlks = 2 ^ (25 - k) := by
  obtain ⟨k, _, upTo, size⟩ := geo.blkSize_pow
  refine ⟨k, size, by omega, ?_⟩
  rw [segmentBlks, size, segmentSize_eq, Nat.pow_div (by omega) (by decide)]

theorem segmentBlks_pos (geo : Geometry) : 0 < geo.segmentBlks := by
  obtain ⟨k, _, _, size⟩ := segmentBlks_pow geo
  rw [size]
  exact Nat.two_pow_pos _

/-- The stripes of a segment, counted in slabs. -/
def depth (geo : Geometry) (c : ℕ) : ℕ :=
  geo.stripSize / geo.blkSize / slabBlksize c

/-- The slot that the next slab starts at. -/
def place (geo : Geometry) (c n : ℕ) : ℕ :=
  if slabBlksize c ≤ geo.stripSize / geo.blkSize then stripe geo.numFiles (depth geo c) n
  else n

/-- Slabs of a striped class fill the strips. -/
theorem striped_sizes (striped : slabBlksize c ≤ geo.stripSize / geo.blkSize) :
    geo.slabsPerSegment c = geo.numFiles * depth geo c ∧ 0 < depth geo c ∧
      geo.stripSize = depth geo c * slabBlksize c * geo.blkSize := by
  obtain ⟨k, blk, upTo, segment⟩ := segmentBlks_pow geo
  obtain ⟨f, files⟩ := geo.numFiles_pow
  have fewFiles : f ≤ 25 := by
    by_contra many
    have none : geo.stripSize = 0 := by
      rw [stripSize, files, segmentSize_eq,
        Nat.div_eq_of_lt (Nat.pow_lt_pow_right (by decide) (by omega))]
    rw [none, Nat.zero_div] at striped
    exact absurd striped (not_le.mpr (slabBlksize_pos c))
  have strip : geo.stripSize = 2 ^ (25 - f) := by
    rw [stripSize, files, segmentSize_eq, Nat.pow_div fewFiles (by decide)]
  have fewBlocks : k ≤ 25 - f := by
    by_contra many
    rw [strip, blk, Nat.div_eq_of_lt (Nat.pow_lt_pow_right (by decide) (by omega))] at striped
    exact absurd striped (not_le.mpr (slabBlksize_pos c))
  have stripBlks : geo.stripSize / geo.blkSize = 2 ^ (25 - f - k) := by
    rw [strip, blk]
    exact Nat.pow_div fewBlocks (by decide)
  have small : c ≤ 25 - f - k := by
    rw [stripBlks, slabBlksize] at striped
    exact (Nat.pow_le_pow_iff_right (by decide)).mp striped
  have deep : depth geo c = 2 ^ (25 - f - k - c) := by
    rw [depth, stripBlks]
    exact Nat.pow_div small (by decide)
  refine ⟨?_, ?_, ?_⟩
  · rw [slabsPerSegment, segment, files, deep, slabBlksize,
      Nat.pow_div (by omega) (by decide), ← pow_add]
    congr 1
    omega
  · rw [deep]
    exact Nat.two_pow_pos _
  · rw [deep, strip, blk, slabBlksize, ← pow_add, ← pow_add]
    congr 1
    omega

theorem nextOffset_eq (c n : ℕ) : nextOffset geo c n = place geo c n * slabBlksize c := by
  unfold nextOffset place
  split_ifs with striped
  · obtain ⟨_, _, strip⟩ := striped_sizes striped
    obtain ⟨k, blk, _, _⟩ := segmentBlks_pow geo
    have blkPos : 0 < geo.blkSize := by
      rw [blk]
      exact Nat.two_pow_pos _
    rw [strip, stripe, add_mul, ← mul_assoc, Nat.mul_div_cancel _ blkPos, mul_assoc]
  · rfl

/-- The slabs asked for fit the unused end of a segment, if its count of slabs leaves room. -/
def Geometry.Fits (geo : Geometry) (c count : ℕ) : Prop :=
  count ≤ 2 ∨ geo.slabsPerSegment c ≤ count ∨ geo.numFiles ≤ 1 ∨
    geo.slabsPerSegment c ≤ geo.numFiles

instance (c count : ℕ) : Decidable (geo.Fits c count) :=
  inferInstanceAs (Decidable (_ ∨ _))

theorem numFiles_pos (geo : Geometry) : 0 < geo.numFiles := by
  obtain ⟨f, files⟩ := geo.numFiles_pow
  rw [files]
  exact Nat.two_pow_pos f

theorem fits_iff (striped : slabBlksize c ≤ geo.stripSize / geo.blkSize) :
    geo.Fits c count ↔ Stripes.Fits geo.numFiles (depth geo c) count := by
  obtain ⟨slabs, _, _⟩ := striped_sizes striped
  have rows : geo.numFiles * depth geo c ≤ geo.numFiles ↔ depth geo c ≤ 1 := by
    conv_lhs => rhs; rw [← mul_one geo.numFiles]
    exact Nat.mul_le_mul_left_iff (numFiles_pos geo)
  rw [Geometry.Fits, Stripes.Fits, slabs, rows]

/-- Slabs given out together stay in the segment. -/
theorem place_add_le {n : ℕ} (fits : geo.Fits c count) (positive : 0 < count)
    (room : n + count ≤ geo.slabsPerSegment c) : place geo c n + count ≤ geo.slabsPerSegment c := by
  unfold place
  split_ifs with striped
  · rw [(striped_sizes striped).1] at room ⊢
    exact stripe_add_le ((fits_iff striped).mp fits) positive room
  · exact room

variable {s s' s'' : Shard} {g k : ℕ}

section

theorem and_bitmapMask (word : BitVec 64) {i : ℕ} (small : i < 64) :
    word &&& bitmapMask i ≠ 0 ↔ word.getLsbD i = true := by
  have mask : BitVec.twoPow 64 i ≠ 0#64 := fun zero => by
    have := congrArg (fun bits => bits.getLsbD i) zero
    simp [small] at this
  rw [bitmapMask, BitVec.and_twoPow]
  cases set : word.getLsbD i with
  | false => simp
  | true => simpa using mask

/-- A word is changed in one bit. -/
theorem bit_setWord (segment : Segment) (k j : ℕ) (v : Bool) (word : BitVec 64)
    (changed : ∀ i < 64, word.getLsbD i =
      if i = k % 64 then v else (segment.mosBitmap (k / 64)).getLsbD i) :
    (segment.setWord (k / 64) word).bit j = if j = k then v else segment.bit j := by
  change (update segment.mosBitmap (k / 64) word (j / 64)).getLsbD (j % 64) =
    if j = k then v else (segment.mosBitmap (j / 64)).getLsbD (j % 64)
  by_cases sameWord : j / 64 = k / 64
  · rw [sameWord, update_self, changed _ (Nat.mod_lt _ (by decide))]
    congr 1
    simp only [eq_iff_iff]
    omega
  · rw [update_of_ne sameWord, if_neg (by rintro rfl; exact sameWord rfl)]

theorem getLsbD_or_mask (word : BitVec 64) (k : ℕ) :
    ∀ i < 64, (word ||| bitmapMask (k % 64)).getLsbD i =
      if i = k % 64 then true else word.getLsbD i := by
  intro i small
  rw [bitmapMask, BitVec.getLsbD_or, BitVec.getLsbD_twoPow]
  by_cases here : i = k % 64
  · simp [here, Nat.mod_lt]
  · simp [here, Ne.symm here]

theorem getLsbD_and_not_mask (word : BitVec 64) (k : ℕ) :
    ∀ i < 64, (word &&& ~~~ bitmapMask (k % 64)).getLsbD i =
      if i = k % 64 then false else word.getLsbD i := by
  intro i small
  rw [bitmapMask, BitVec.getLsbD_and, BitVec.getLsbD_not, BitVec.getLsbD_twoPow]
  by_cases here : i = k % 64
  · simp [here, Nat.mod_lt]
  · simp [here, small, Ne.symm here]

theorem div_lt_bitmapWords (inside : k < geo.slabsPerSegment c) : k / 64 < geo.bitmapWords c := by
  unfold bitmapWords
  omega

/-- What is left alone when the slots of a segment change: all but its bitmap and the counts of
slabs in use. -/
structure Frame (s s' : Shard) (g : ℕ) : Prop where
  others : ∀ g', g' ≠ g → s'.baseSegments g' = s.baseSegments g'
  idx : (s'.baseSegments g).idx = (s.baseSegments g).idx
  nextSlab : (s'.baseSegments g).nextSlab = (s.baseSegments g).nextSlab
  blkOffset : (s'.baseSegments g).blkOffset = (s.baseSegments g).blkOffset
  slabClass : (s'.baseSegments g).slabClass = (s.baseSegments g).slabClass
  classes : ∀ c, s'.slabClasses c = { s.slabClasses c with usedSlabs := (s'.slabClasses c).usedSlabs }
  blkAllocated : s'.blkAllocated = s.blkAllocated
  freeSegments : s'.freeSegments = s.freeSegments
  segmentTable : s'.segmentTable = s.segmentTable

theorem Frame.refl (s : Shard) (g : ℕ) : Frame s s g :=
  ⟨fun _ _ => rfl, rfl, rfl, rfl, rfl, fun _ => rfl, rfl, rfl, rfl⟩

theorem Frame.trans (first : Frame s s' g) (second : Frame s' s'' g) : Frame s s'' g where
  others g' other := (second.others g' other).trans (first.others g' other)
  idx := second.idx.trans first.idx
  nextSlab := second.nextSlab.trans first.nextSlab
  blkOffset := second.blkOffset.trans first.blkOffset
  slabClass := second.slabClass.trans first.slabClass
  classes c := by rw [second.classes c, first.classes c]
  blkAllocated := second.blkAllocated.trans first.blkAllocated
  freeSegments := second.freeSegments.trans first.freeSegments
  segmentTable := second.segmentTable.trans first.segmentTable

theorem frame_set (s : Shard) (g usedSlabs used : ℕ) (w : ℕ → BitVec 64) : Frame s ((s.setSegment g
      { s.baseSegments g with mosBitmap := w, usedSlabs := usedSlabs }).setClass
        (s.baseSegments g).slabClass
        { s.slabClasses (s.baseSegments g).slabClass with usedSlabs := used }) g := by
  refine ⟨fun g' other => ?_, ?_, ?_, ?_, ?_, fun c => ?_, rfl, rfl, rfl⟩
  · exact update_of_ne other _ _
  iterate 4 simp [setSegment, setClass]
  by_cases same : c = (s.baseSegments g).slabClass
  · subst same
    simp [setSegment, setClass]
  · simp [setSegment, setClass, same]

/-- The `count` slots from `first` on are changed to `v`. -/
structure Rewritten (s s' : Shard) (g first count : ℕ) (v : Bool) : Prop where
  frame : Frame s s' g
  before : ∀ k, first ≤ k → k < first + count → (s.baseSegments g).bit k = !v
  bits : ∀ k, (s'.baseSegments g).bit k =
    if first ≤ k ∧ k < first + count then v else (s.baseSegments g).bit k
  used : (s'.baseSegments g).usedSlabs =
    if v then (s.baseSegments g).usedSlabs + count else (s.baseSegments g).usedSlabs - count

theorem rewritten_taken (clear : (s.baseSegments g).bit k = false) :
    Rewritten s (s.taken g k) g k 1 true := by
  refine ⟨frame_set s g _ _ _, fun j lower upTo => ?_, fun j => ?_, ?_⟩
  · rwa [show j = k by omega]
  · have segment : ((s.taken g k).baseSegments g).bit j = ((s.baseSegments g).setWord (k / 64)
          ((s.baseSegments g).mosBitmap (k / 64) ||| bitmapMask (k % 64))).bit j := by
      simp [taken, setSegment, setClass, bit]
    rw [segment, bit_setWord _ _ _ true _ (getLsbD_or_mask _ k)]
    congr 1
    simp only [eq_iff_iff]
    omega
  · simp [taken, setSegment, setClass]

/-- A slot is taken if it is clear. -/
theorem slotAlloc_spec (inside : k < geo.slabsPerSegment (s.baseSegments g).slabClass) :
    ((s.baseSegments g).bit k = true ∧ slotAlloc geo s g k = .ok (false, s)) ∨
      ((s.baseSegments g).bit k = false ∧ slotAlloc geo s g k = .ok (true, s.taken g k)) := by
  have words := div_lt_bitmapWords inside
  have mask := and_bitmapMask ((s.baseSegments g).mosBitmap (k / 64)) (Nat.mod_lt k (by decide : 0 < 64))
  unfold slotAlloc
  rw [if_neg (not_le.mpr words)]
  cases set : (s.baseSegments g).bit k with
  | true => exact .inl ⟨rfl, if_pos (mask.mpr set)⟩
  | false =>
    refine .inr ⟨rfl, if_neg fun nonzero => ?_⟩
    exact Bool.false_ne_true (set.symm.trans (mask.mp nonzero))

/-- Slots next to each other are changed one after the other. -/
theorem Rewritten.cons (one : Rewritten s s' g k 1 true)
    (more : Rewritten s' s'' g (k + 1) count true) : Rewritten s s'' g k (count + 1) true := by
  refine ⟨one.frame.trans more.frame, fun j lower upTo => ?_, fun j => ?_, ?_⟩
  · rcases Nat.lt_or_eq_of_le lower with later | rfl
    · rw [← more.before j later (by omega), one.bits, if_neg (by omega)]
    · exact one.before k le_rfl (by omega)
  · rw [more.bits, one.bits]
    split_ifs <;> first | rfl | omega
  · rw [more.used, one.used]
    simp only [if_true]
    omega

variable {offs : ℕ}

/-- The slots that are taken are clear; the first that is set ends the loop. -/
theorem takeSlots_spec {left : ℕ}
    (inside : offs + left ≤ geo.slabsPerSegment (s.baseSegments g).slabClass) :
    ∃ i s', takeSlots geo g offs left s = .ok (i, s') ∧ i ≤ left ∧
      Rewritten s s' g offs i true := by
  induction left generalizing offs s with
  | zero =>
    refine ⟨0, s, by rw [takeSlots], le_rfl, Frame.refl s g, fun _ _ _ => by omega,
      fun k => ?_, rfl⟩
    rw [if_neg (by omega)]
  | succ left ih =>
    rw [takeSlots]
    have slot : offs < geo.slabsPerSegment (s.baseSegments g).slabClass := by omega
    rcases slotAlloc_spec slot with ⟨_, taken⟩ | ⟨clear, taken⟩
    · rw [taken]
      refine ⟨0, s, rfl, Nat.zero_le _, Frame.refl s g, fun _ _ _ => by omega, fun k => ?_, rfl⟩
      rw [if_neg (by omega)]
    · have one := rewritten_taken clear
      have onward : offs + 1 + left ≤
          geo.slabsPerSegment ((s.taken g offs).baseSegments g).slabClass := by
        rw [one.frame.slabClass]
        omega
      obtain ⟨i, s', rest, upTo, more⟩ := ih onward
      rw [taken]
      simp only [rest]
      exact ⟨i + 1, s', rfl, by omega, one.cons more⟩

/-- Slots are cleared. -/
theorem clearSlots_spec {segment : Segment}
    (inside : offs + count ≤ geo.slabsPerSegment segment.slabClass) :
    ∃ w, clearSlots geo segment offs count = .ok { segment with mosBitmap := w } ∧
      ∀ k, { segment with mosBitmap := w }.bit k =
        if offs ≤ k ∧ k < offs + count then false else segment.bit k := by
  induction count with
  | zero =>
    refine ⟨segment.mosBitmap, rfl, fun k => ?_⟩
    rw [if_neg (by omega)]
  | succ count ih =>
    obtain ⟨w, cleared, bits⟩ := ih (by omega)
    have words : (offs + count) / 64 < geo.bitmapWords segment.slabClass :=
      div_lt_bitmapWords (by omega)
    rw [clearSlots, cleared]
    simp only [if_neg (not_le.mpr words)]
    refine ⟨_, rfl, fun k => ?_⟩
    have changed := bit_setWord { segment with mosBitmap := w } (offs + count) k false _
      (getLsbD_and_not_mask _ _)
    refine changed.trans ?_
    rw [bits]
    split_ifs <;> first | rfl | omega

/-- Slots are given back. -/
theorem deallocLow_spec (inside : offs + count ≤ geo.slabsPerSegment (s.baseSegments g).slabClass)
    (set : ∀ k, offs ≤ k → k < offs + count → (s.baseSegments g).bit k = true) :
    ∃ s', deallocLow geo s g ((s.baseSegments g).blkOffset +
        offs * slabBlksize (s.baseSegments g).slabClass) count = .ok s' ∧
      Rewritten s s' g offs count false := by
  obtain ⟨w, cleared, bits⟩ := clearSlots_spec inside
  unfold deallocLow
  simp only [Nat.add_sub_cancel_left, Nat.mul_div_cancel _ (slabBlksize_pos _), cleared]
  refine ⟨_, rfl, frame_set s g _ _ w, set, fun k => ?_, ?_⟩
  · rw [← bits]
    simp [setSegment, setClass, bit]
  · simp [setSegment, setClass]

end

/-- The slabs in use, by their first block: the class of each. -/
abbrev Ledger := ℕ → Option ℕ

/-- `count` slabs of the class from the block on are given out (`v`) or taken back. -/
def settle (A : Ledger) (blk c count : ℕ) (v : Bool) : Ledger := fun b =>
  if ∃ i < count, b = blk + i * slabBlksize c then if v then some c else none else A b

/-- Segments that were never assigned to a class. -/
def Unused (geo : Geometry) (s : Shard) (g : ℕ) : Prop :=
  g < geo.totalSegments ∧
    if geo.mirrored then (g + 1) * geo.segmentBlks + s.blkAllocated ≤ geo.totalBlks
    else s.blkAllocated ≤ g * geo.segmentBlks

/-- The slot of the segment that the block starts. -/
def slotBlk (geo : Geometry) (c g k : ℕ) : ℕ :=
  g * geo.segmentBlks + k * slabBlksize c

/-- Where the segments are. -/
structure Layout (geo : Geometry) (s : Shard) : Prop where
  held : ∀ c i g, (s.slabClasses c).segments i = some g →
    g < geo.totalSegments ∧ i < (s.slabClasses c).numSegments ∧ (s.baseSegments g).idx = i ∧
      (s.baseSegments g).slabClass = c ∧ (s.baseSegments g).blkOffset = g * geo.segmentBlks ∧
      s.segmentTable g = true
  sized : ∀ c, (s.slabClasses c).numSegments ≤ geo.totalSegments
  frees : ∀ c, ∀ b ∈ (s.slabClasses c).freeSlabs, ∃ g k, s.segmentTable g = true ∧
    k < geo.slabsPerSegment c ∧ b = slotBlk geo c g k
  spare : ∀ b ∈ s.freeSegments, ∃ g < geo.totalSegments, b = g * geo.segmentBlks ∧
    (∀ c, s.holds c g = false) ∧ ¬ Unused geo s g
  spareOnce : s.freeSegments.Nodup
  whole : ∃ n ≤ geo.totalSegments, s.blkAllocated = n * geo.segmentBlks
  unused : ∀ g, Unused geo s g → ∀ c, s.holds c g = false
  tracked : ∀ g < geo.totalSegments, (s.segmentTable g = false ↔ Unused geo s g) ∧
    (Unused geo s g ∨ g * geo.segmentBlks ∈ s.freeSegments ∨ ∃ c, s.holds c g = true)

/-- What the calls keep. -/
structure Inv (geo : Geometry) (s : Shard) (A : Ledger) : Prop extends Layout geo s where
  live : ∀ b c, A b = some c ↔ ∃ g k, s.holds c g = true ∧ k < geo.slabsPerSegment c ∧
    b = slotBlk geo c g k ∧ (s.baseSegments g).bit k = true
  used : ∀ c g, s.holds c g = true → (s.baseSegments g).usedSlabs =
    ((range (geo.slabsPerSegment c)).filter fun k => (s.baseSegments g).bit k = true).card
  idle : ∀ g, (∀ c, s.holds c g = false) → (s.baseSegments g).usedSlabs = 0

variable {A : Ledger} {c' g' k' : ℕ}

theorem unused_congr (allocated : s'.blkAllocated = s.blkAllocated) :
    Unused geo s' g ↔ Unused geo s g := by
  rw [Unused, Unused, allocated]

theorem slot_blocks (inside : k < geo.slabsPerSegment c) :
    k * slabBlksize c < geo.segmentBlks := by
  have := Nat.mul_le_mul_right (slabBlksize c) inside
  have cells := Nat.div_mul_le_self geo.segmentBlks (slabBlksize c)
  have width := slabBlksize_pos c
  rw [Nat.succ_mul] at this
  rw [slabsPerSegment] at this inside
  omega

theorem slotBlk_div (inside : k < geo.slabsPerSegment c) :
    slotBlk geo c g k / geo.segmentBlks = g := by
  rw [slotBlk, mul_comm g, Nat.mul_add_div (segmentBlks_pos geo),
    Nat.div_eq_of_lt (slot_blocks inside), add_zero]

theorem slotBlk_add (first i : ℕ) :
    slotBlk geo c g first + i * slabBlksize c = slotBlk geo c g (first + i) := by
  rw [slotBlk, slotBlk, add_mul]
  omega

theorem slotBlk_place (c g n : ℕ) :
    g * geo.segmentBlks + nextOffset geo c n = slotBlk geo c g (place geo c n) := by
  rw [nextOffset_eq, slotBlk]

theorem slotBlk_sub (c g k : ℕ) :
    (slotBlk geo c g k - g * geo.segmentBlks) / slabBlksize c = k := by
  rw [slotBlk, Nat.add_sub_cancel_left, Nat.mul_div_cancel _ (slabBlksize_pos c)]

/-- Slots have blocks of their own. -/
theorem slotBlk_injective (same : slotBlk geo c g k = slotBlk geo c g k') : k = k' :=
  Nat.eq_of_mul_eq_mul_right (slabBlksize_pos c) (Nat.add_left_cancel same)

theorem holds_iff : s.holds c g = true ↔ (s.slabClasses c).segments (s.baseSegments g).idx = some g := by
  rw [holds, decide_eq_true_iff]

theorem Inv.class_eq (inv : Inv geo s A) (holds : s.holds c g = true) :
    (s.baseSegments g).slabClass = c :=
  (inv.held c _ g (holds_iff.mp holds)).2.2.2.1

/-- A segment has one class. -/
theorem Inv.class_unique (inv : Inv geo s A) (holds' : s.holds c' g = true)
    (holds : s.holds c g = true) : c' = c :=
  (inv.class_eq holds').symm.trans (inv.class_eq holds)

theorem Inv.blkOffset (inv : Inv geo s A) (holds : s.holds c g = true) :
    (s.baseSegments g).blkOffset = g * geo.segmentBlks :=
  (inv.held c _ g (holds_iff.mp holds)).2.2.2.2.1

theorem Inv.holds_of_listed (inv : Inv geo s A) {i : ℕ}
    (listed : (s.slabClasses c).segments i = some g) : s.holds c g = true := by
  rw [holds_iff, (inv.held c i g listed).2.2.1, listed]

theorem Inv.getAndLock (inv : Inv geo s A) (i : ℕ) :
    s.getAndLock c i = (s.slabClasses c).segments i := by
  unfold Shard.getAndLock
  cases listed : (s.slabClasses c).segments i with
  | none => rfl
  | some g => exact if_pos (inv.holds_of_listed listed)

/-- The segments are where they were. -/
structure SameLayout (geo : Geometry) (s s' : Shard) : Prop where
  seg : ∀ g, (s'.baseSegments g).idx = (s.baseSegments g).idx ∧
    (s'.baseSegments g).blkOffset = (s.baseSegments g).blkOffset ∧
    (s'.baseSegments g).slabClass = (s.baseSegments g).slabClass
  numSegments : ∀ c, (s'.slabClasses c).numSegments = (s.slabClasses c).numSegments
  segments : ∀ c, (s'.slabClasses c).segments = (s.slabClasses c).segments
  freeSlabs : ∀ c, ∀ b ∈ (s'.slabClasses c).freeSlabs, b ∈ (s.slabClasses c).freeSlabs ∨
    ∃ g k, s.segmentTable g = true ∧ k < geo.slabsPerSegment c ∧ b = slotBlk geo c g k
  blkAllocated : s'.blkAllocated = s.blkAllocated
  freeSegments : s'.freeSegments = s.freeSegments
  segmentTable : s'.segmentTable = s.segmentTable

theorem SameLayout.holds_eq (same : SameLayout geo s s') : s'.holds c g = s.holds c g := by
  unfold holds
  rw [(same.seg g).1, same.segments c]

theorem Layout.keeps (layout : Layout geo s) (same : SameLayout geo s s') : Layout geo s' := by
  have unusedEq : ∀ g, Unused geo s' g ↔ Unused geo s g := fun _ => unused_congr same.blkAllocated
  constructor
  case held =>
    intro c i g listed
    rw [same.segments c] at listed
    obtain ⟨index, blk, cls⟩ := same.seg g
    rw [index, blk, cls, same.numSegments, same.segmentTable]
    exact layout.held c i g listed
  case sized => exact fun c => same.numSegments c ▸ layout.sized c
  case frees =>
    intro c b pushed
    rw [same.segmentTable]
    rcases same.freeSlabs c b pushed with old | new
    · exact layout.frees c b old
    · exact new
  case spareOnce => exact same.freeSegments ▸ layout.spareOnce
  case whole => exact same.blkAllocated ▸ layout.whole
  case spare => simpa only [same.freeSegments, same.holds_eq, unusedEq] using layout.spare
  case unused => simpa only [unusedEq, same.holds_eq] using layout.unused
  case tracked =>
    simpa only [same.segmentTable, unusedEq, same.freeSegments, same.holds_eq] using layout.tracked

theorem Frame.sameLayout (frame : Frame s s' g) (geo : Geometry) : SameLayout geo s s' where
  seg g' := by
    by_cases same : g' = g
    · rw [same]
      exact ⟨frame.idx, frame.blkOffset, frame.slabClass⟩
    · rw [frame.others g' same]
      exact ⟨rfl, rfl, rfl⟩
  numSegments c := by rw [frame.classes c]
  segments c := by rw [frame.classes c]
  freeSlabs c b member := by
    rw [frame.classes c] at member
    exact .inl member
  blkAllocated := frame.blkAllocated
  freeSegments := frame.freeSegments
  segmentTable := frame.segmentTable

/-- The count of slabs in use stays the number of slots that are set. -/
theorem Rewritten.used_eq_card {first slabs : ℕ} {v : Bool}
    (rewritten : Rewritten s s' g first count v) (inside : first + count ≤ slabs)
    (used : (s.baseSegments g).usedSlabs =
      ((range slabs).filter fun k => (s.baseSegments g).bit k = true).card) :
    (s'.baseSegments g).usedSlabs =
      ((range slabs).filter fun k => (s'.baseSegments g).bit k = true).card := by
  have changed : (Finset.Ico first (first + count)).card = count := by
    rw [Nat.card_Ico, Nat.add_sub_cancel_left]
  rw [rewritten.used, used, ← changed]
  cases v with
  | true =>
    rw [if_pos rfl, ← card_union_of_disjoint]
    · congr 1
      ext j
      simp only [mem_union, mem_filter, mem_range, mem_Ico, rewritten.bits]
      by_cases here : first ≤ j ∧ j < first + count
      · rw [if_pos here]
        exact ⟨fun _ => ⟨by omega, rfl⟩, fun _ => .inr here⟩
      · rw [if_neg here]
        exact ⟨fun member => member.resolve_right here, .inl⟩
    · rw [disjoint_left]
      intro j member here
      rw [mem_Ico] at here
      cases (mem_filter.mp member).2.symm.trans (rewritten.before j here.1 here.2)
  | false =>
    rw [if_neg Bool.false_ne_true, ← card_sdiff_of_subset]
    · congr 1
      ext j
      simp only [mem_sdiff, mem_filter, mem_range, mem_Ico, rewritten.bits]
      split_ifs with here <;> simp [here]
    · intro j here
      rw [mem_Ico] at here
      rw [mem_filter, mem_range]
      exact ⟨by omega, rewritten.before j here.1 here.2⟩

/-- Slots and ledger change together. -/
theorem Inv.rewrite {first : ℕ} {v : Bool} (inv : Inv geo s A) (holds : s.holds c g = true)
    (inside : first + count ≤ geo.slabsPerSegment c) (rewritten : Rewritten s s' g first count v) :
    Inv geo s' (settle A (slotBlk geo c g first) c count v) := by
  have frame := rewritten.frame
  have same := frame.sameLayout geo
  have bits : ∀ g' k', (s'.baseSegments g').bit k' = if g' = g ∧ first ≤ k' ∧ k' < first + count
      then v else (s.baseSegments g').bit k' := fun g' k' => by
    by_cases same : g' = g
    · subst same
      rw [rewritten.bits]
      simp
    · rw [frame.others g' same, if_neg fun both => same both.1]
  refine ⟨inv.keeps same, ?live, ?used, ?idle⟩
  case live =>
    intro b c'
    by_cases settled : ∃ i < count, b = slotBlk geo c g first + i * slabBlksize c
    · obtain ⟨i, below, rfl⟩ := settled
      rw [settle, if_pos ⟨i, below, rfl⟩, slotBlk_add]
      constructor
      · intro given
        cases v with
        | false => simp at given
        | true =>
          simp only [if_true, Option.some.injEq] at given
          subst given
          refine ⟨g, first + i, same.holds_eq.trans holds, by omega, rfl, ?_⟩
          rw [bits, if_pos ⟨rfl, by omega, by omega⟩]
      · rintro ⟨g', k', holds', slot, sameBlk, set⟩
        rw [same.holds_eq] at holds'
        obtain rfl : g' = g := by
          have region : slotBlk geo c g (first + i) / geo.segmentBlks = g := slotBlk_div (by omega)
          rw [sameBlk, slotBlk_div slot] at region
          exact region
        obtain rfl := inv.class_unique holds' holds
        obtain rfl := slotBlk_injective sameBlk
        rw [bits, if_pos ⟨rfl, by omega, by omega⟩] at set
        rw [set, if_pos rfl]
    · rw [settle, if_neg settled, inv.live]
      have apart : ∀ g' k', s.holds c' g' = true → b = slotBlk geo c' g' k' →
          ¬ (g' = g ∧ first ≤ k' ∧ k' < first + count) := by
        rintro g' k' holds' rfl ⟨rfl, lower, upTo⟩
        obtain rfl := inv.class_unique holds' holds
        refine settled ⟨k' - first, by omega, ?_⟩
        rw [slotBlk_add]
        congr 1
        omega
      constructor
      · rintro ⟨g', k', holds', slot, rfl, set⟩
        refine ⟨g', k', same.holds_eq.trans holds', slot, rfl, ?_⟩
        rwa [bits, if_neg (apart g' k' holds' rfl)]
      · rintro ⟨g', k', holds', slot, rfl, set⟩
        rw [same.holds_eq] at holds'
        rw [bits, if_neg (apart g' k' holds' rfl)] at set
        exact ⟨g', k', holds', slot, rfl, set⟩
  case used =>
    intro c' g' holds'
    rw [same.holds_eq] at holds'
    by_cases same : g' = g
    · subst same
      obtain rfl := inv.class_unique holds' holds
      rw [rewritten.used_eq_card inside (inv.used c' g' holds')]
    · rw [frame.others g' same]
      exact inv.used c' g' holds'
  case idle =>
    intro g' noClass
    have other : g' ≠ g := by
      rintro rfl
      cases (same.holds_eq.trans holds).symm.trans (noClass c)
    rw [frame.others g' other]
    exact inv.idle g' fun c' => same.holds_eq.symm.trans (noClass c')

/-- None of the segment's slabs is in use. -/
def Vacant (geo : Geometry) (s : Shard) (g : ℕ) : Prop :=
  (s.baseSegments g).usedSlabs = 0 ∧ ∀ c, s.holds c g = true → ∀ k < geo.slabsPerSegment c,
    (s.baseSegments g).bit k = false

/-- The segment is in the class that had it, with the slabs that were in use. -/
structure SameSlots (s s' : Shard) (g : ℕ) : Prop where
  holds : ∀ c, s'.holds c g = s.holds c g
  usedSlabs : (s'.baseSegments g).usedSlabs = (s.baseSegments g).usedSlabs
  mosBitmap : (s'.baseSegments g).mosBitmap = (s.baseSegments g).mosBitmap

/-- Segments without slabs in use may change hands. -/
theorem Inv.relocate (inv : Inv geo s A) (layout : Layout geo s')
    (kept : ∀ g, Vacant geo s g ∧ Vacant geo s' g ∨ SameSlots s s' g) : Inv geo s' A := by
  have bits : ∀ {g}, SameSlots s s' g → ∀ k, (s'.baseSegments g).bit k = (s.baseSegments g).bit k :=
    fun same k => by rw [bit, bit, same.mosBitmap]
  refine ⟨layout, fun b c => (inv.live b c).trans ⟨?_, ?_⟩, fun c g holds => ?_, fun g noClass => ?_⟩
  · rintro ⟨g, k, holds, slot, rfl, set⟩
    rcases kept g with ⟨vacant, _⟩ | same
    · cases set.symm.trans (vacant.2 c holds k slot)
    · exact ⟨g, k, (same.holds c).trans holds, slot, rfl, (bits same k).trans set⟩
  · rintro ⟨g, k, holds, slot, rfl, set⟩
    rcases kept g with ⟨_, vacant⟩ | same
    · cases set.symm.trans (vacant.2 c holds k slot)
    · exact ⟨g, k, (same.holds c).symm.trans holds, slot, rfl, (bits same k).symm.trans set⟩
  · rcases kept g with ⟨_, vacant⟩ | same
    · rw [vacant.1, eq_comm, card_eq_zero, filter_eq_empty_iff]
      intro k slot
      simp [vacant.2 c holds k (mem_range.mp slot)]
    · simp only [bits same]
      rw [same.usedSlabs]
      exact inv.used c g ((same.holds c).symm.trans holds)
  · rcases kept g with ⟨_, vacant⟩ | same
    · exact vacant.1
    · rw [same.usedSlabs]
      exact inv.idle g fun c => (same.holds c).symm.trans (noClass c)

/-- Changes that no slab in use depends on: of `next_slab`, of the scan hands, of the free lists. -/
structure Similar (geo : Geometry) (s s' : Shard) : Prop extends SameLayout geo s s' where
  slots : ∀ g, (s'.baseSegments g).usedSlabs = (s.baseSegments g).usedSlabs ∧
    (s'.baseSegments g).mosBitmap = (s.baseSegments g).mosBitmap

/-- What the slots do not depend on may change. -/
theorem Inv.similar (inv : Inv geo s A) (similar : Similar geo s s') : Inv geo s' A :=
  inv.relocate (inv.keeps similar.toSameLayout) fun g =>
    .inr ⟨fun _ => similar.holds_eq, (similar.slots g).1, (similar.slots g).2⟩

variable {cls : SlabClass}

theorem setClass_self : (s.setClass c cls).slabClasses c = cls :=
  update_self _ _ _

theorem setClass_of_ne (other : c' ≠ c) : (s.setClass c cls).slabClasses c' = s.slabClasses c' :=
  update_of_ne other _ _

theorem similar_setClass (num : cls.numSegments = (s.slabClasses c).numSegments)
    (segments : cls.segments = (s.slabClasses c).segments)
    (frees : ∀ b ∈ cls.freeSlabs, b ∈ (s.slabClasses c).freeSlabs ∨
      ∃ g k, s.segmentTable g = true ∧ k < geo.slabsPerSegment c ∧ b = slotBlk geo c g k) :
    Similar geo s (s.setClass c cls) := by
  refine ⟨⟨fun _ => ⟨rfl, rfl, rfl⟩, fun c' => ?_, fun c' => ?_, fun c' b member => ?_, rfl, rfl, rfl⟩,
    fun _ => ⟨rfl, rfl⟩⟩
  · by_cases same : c' = c
    · rw [same, setClass_self, num]
    · rw [setClass_of_ne same]
  · by_cases same : c' = c
    · rw [same, setClass_self, segments]
    · rw [setClass_of_ne same]
  · by_cases same : c' = c
    · subst same
      rw [setClass_self] at member
      exact frees b member
    · rw [setClass_of_ne same] at member
      exact .inl member

/-- The slabs past `next_slab` and the segments to assign are as many as before. -/
structure SameRooms (s s' : Shard) : Prop where
  nextSlab : ∀ g, (s'.baseSegments g).nextSlab = (s.baseSegments g).nextSlab
  freeSegments : s'.freeSegments = s.freeSegments
  blkAllocated : s'.blkAllocated = s.blkAllocated

theorem SameRooms.refl (s : Shard) : SameRooms s s := ⟨fun _ => rfl, rfl, rfl⟩

theorem SameRooms.trans (first : SameRooms s s') (second : SameRooms s' s'') : SameRooms s s'' :=
  ⟨fun g => (second.nextSlab g).trans (first.nextSlab g),
    second.freeSegments.trans first.freeSegments, second.blkAllocated.trans first.blkAllocated⟩

theorem sameRooms_setClass : SameRooms s (s.setClass c cls) :=
  ⟨fun _ => rfl, rfl, rfl⟩

/-- `count` slabs of the class from the block on: they lie in one segment of the class, at its slab
boundaries, and clear of the slabs in use. -/
structure Placed (geo : Geometry) (s : Shard) (A : Ledger) (c blk count : ℕ) : Prop where
  inside : ∃ g k, s.holds c g = true ∧ k + count ≤ geo.slabsPerSegment c ∧ blk = slotBlk geo c g k
  disjoint : ∀ b c', A b = some c' →
    Disjoint (Set.Ico blk (blk + count * slabBlksize c))
      (Set.Ico b (b + slabBlksize c'))

theorem Ico_slotBlk (c g k count : ℕ) :
    Set.Ico (slotBlk geo c g k) (slotBlk geo c g k + count * slabBlksize c) =
      blocks geo.segmentBlks (slabBlksize c) g k count := by
  rw [slotBlk_add]
  rfl

/-- Clear slots overlap nothing that is in use. -/
theorem Inv.disjoint_of_clear (inv : Inv geo s A) (holds : s.holds c g = true)
    (inside : k + count ≤ geo.slabsPerSegment c)
    (clear : ∀ j, k ≤ j → j < k + count → (s.baseSegments g).bit j = false) :
    ∀ b c', A b = some c' →
      Disjoint (Set.Ico (slotBlk geo c g k) (slotBlk geo c g k + count * slabBlksize c))
        (Set.Ico b (b + slabBlksize c')) := by
  intro b c' inUse
  obtain ⟨g', k', holds', slot, rfl, set⟩ := (inv.live b c').mp inUse
  have one : Set.Ico (slotBlk geo c' g' k') (slotBlk geo c' g' k' + slabBlksize c') =
      blocks geo.segmentBlks (slabBlksize c') g' k' 1 := by
    rw [← Ico_slotBlk, one_mul]
  rw [Ico_slotBlk, one]
  by_cases same : g = g'
  · subst same
    obtain rfl := inv.class_unique holds' holds
    refine blocks_disjoint_cell fun i below there => ?_
    cases set.symm.trans (clear _ (by omega) (by omega))
  · exact blocks_disjoint_region same inside slot

/-- A call on one slab of the class: it leaves the slabs in use as they are, or returns one more. -/
def Yields (geo : Geometry) (s : Shard) (A : Ledger) (c : ℕ) : Option ℕ × Shard → Prop
  | (none, s') => Inv geo s' A ∧ SameRooms s s'
  | (some blk, s') => Placed geo s' A c blk 1 ∧ Inv geo s' (settle A blk c 1 true)

/-- What a call can do, short of an assertion. -/
def Sound (P : Option ℕ × Shard → Prop) (outcome : Except Fault (Option ℕ × Shard)) : Prop :=
  outcome = .error .abort ∨ ∃ r, outcome = .ok r ∧ P r

theorem Inv.taken (inv : Inv geo s A) (holds : s.holds c g = true)
    (inside : k < geo.slabsPerSegment c) (clear : (s.baseSegments g).bit k = false) :
    Yields geo s A c (some (slotBlk geo c g k), s.taken g k) := by
  have rewritten := rewritten_taken clear
  refine ⟨⟨⟨g, k, (rewritten.frame.sameLayout geo).holds_eq.trans holds, inside, rfl⟩, ?_⟩,
    inv.rewrite holds inside rewritten⟩
  exact inv.disjoint_of_clear holds inside rewritten.before

/-- A slot is given out. -/
theorem Inv.slotAlloc (inv : Inv geo s A) (holds : s.holds c g = true)
    (inside : k < geo.slabsPerSegment c) :
    slotAlloc geo s g k = .ok (false, s) ∨ ∃ s', slotAlloc geo s g k = .ok (true, s') ∧
      Yields geo s A c (some (slotBlk geo c g k), s') := by
  have cls := inv.class_eq holds
  rcases slotAlloc_spec (cls.symm ▸ inside : k < geo.slabsPerSegment (s.baseSegments g).slabClass)
    with ⟨_, failed⟩ | ⟨clear, done⟩
  · exact .inl failed
  · exact .inr ⟨_, done, inv.taken holds inside clear⟩

end Zetascale.Flash.Slabs
