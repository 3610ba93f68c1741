import Zetascale.Flash.SlabSlots

/-!
# Segments are assigned and released

A class grows by a segment that no class has, and with garbage collection it gives back a segment
without slabs in use. Both keep what the slabs in use depend on.
-/

namespace Zetascale.Flash.Slabs

open Function List Option Bool Shard Slabs.Geometry

variable {geo : Geometry} {s s' : Shard} {A : Ledger} {c g : ℕ}

/-- A new bitmap is clear. -/
theorem bit_newBitmap {segment : Segment} {slabs k : ℕ} (memory : ℕ → BitVec 64)
    (inside : k < slabs) (bitmap : segment.mosBitmap = newBitmap slabs memory) :
    segment.bit k = false := by
  rw [Segment.bit, bitmap, newBitmap, BitVec.getLsbD_and, BitVec.getLsbD_shiftLeft]
  have cleared : k % 64 < (slabs + 7) / 8 * 8 - k / 64 * 64 := by
    omega
  simp [cleared]

/-- A class that has all slots of its list in use has all segments of the shard. -/
theorem Inv.exists_free_slot (inv : Inv geo s A) (below : g < geo.totalSegments)
    (noClass : ∀ c, s.holds c g = false) :
    ∃ i < geo.totalSegments, (s.slabClasses c).segments i = none := by
  by_contra all
  have listed : ∀ i < geo.totalSegments, ∃ g', (s.slabClasses c).segments i = some g' := fun i small => by
    cases segment : (s.slabClasses c).segments i with
    | none => exact absurd ⟨i, small, segment⟩ all
    | some g' => exact ⟨g', rfl⟩
  have toOthers : ∀ i ∈ Finset.range geo.totalSegments,
      ((s.slabClasses c).segments i).getD 0 ∈ (Finset.range geo.totalSegments).erase g := fun i member => by
    obtain ⟨g', segment⟩ := listed i (Finset.mem_range.mp member)
    rw [segment, getD_some, Finset.mem_erase, Finset.mem_range]
    refine ⟨?_, (inv.held c i g' segment).1⟩
    rintro rfl
    cases (inv.holds_of_listed segment).symm.trans (noClass c)
  have once : Set.InjOn (fun i => ((s.slabClasses c).segments i).getD 0)
      (Finset.range geo.totalSegments) := fun i member j member' same => by
    obtain ⟨g', segment⟩ := listed i (Finset.mem_range.mp member)
    obtain ⟨g'', segment'⟩ := listed j (Finset.mem_range.mp member')
    simp only [segment, segment', getD_some] at same
    subst same
    exact (inv.held c i g' segment).2.2.1.symm.trans (inv.held c j g' segment').2.2.1
  have count := Finset.card_le_card_of_injOn _ toOthers once
  rw [Finset.card_erase_of_mem (Finset.mem_range.mpr below), Finset.card_range] at count
  omega

/-- A class has a slot for one more segment. -/
theorem Inv.slot_spec (inv : Inv geo s A) (below : g < geo.totalSegments)
    (noClass : ∀ c, s.holds c g = false) {i : ℕ}
    (slot : i = if decide ((s.slabClasses c).numSegments < geo.totalSegments)
      then (s.slabClasses c).numSegments else (s.slabClasses c).freeSlot) :
    i < geo.totalSegments ∧ (s.slabClasses c).segments i = none ∧
      i < if decide ((s.slabClasses c).numSegments < geo.totalSegments)
        then (s.slabClasses c).numSegments + 1 else (s.slabClasses c).numSegments := by
  by_cases more : (s.slabClasses c).numSegments < geo.totalSegments
  · rw [if_pos (decide_eq_true more)] at slot ⊢
    subst slot
    refine ⟨more, ?_, lt_add_one _⟩
    cases listed : (s.slabClasses c).segments (s.slabClasses c).numSegments with
    | none => rfl
    | some g' => exact absurd (inv.held c _ g' listed).2.1 (lt_irrefl _)
  · rw [if_neg (by simpa using more)] at slot ⊢
    have all : (s.slabClasses c).numSegments = geo.totalSegments := by
      have := inv.sized c
      omega
    obtain ⟨j, small, free⟩ := inv.exists_free_slot (c := c) below noClass
    rw [SlabClass.freeSlot] at slot
    cases found : (range (s.slabClasses c).numSegments).find?
        fun i => ((s.slabClasses c).segments i).isNone with
    | none =>
      have := find?_eq_none.mp found j (mem_range.mpr (all ▸ small))
      simp [free] at this
    | some i' =>
      rw [found, getD_some] at slot
      subst slot
      have member := mem_range.mp (mem_of_find?_eq_some found)
      have none := find?_some found
      exact ⟨all ▸ member, isNone_iff_eq_none.mp none, member⟩

/-- The segment `g` is slot `i` of the class, with a clear bitmap. -/
structure Assigned (geo : Geometry) (s s' : Shard) (c g i n : ℕ) : Prop where
  others : ∀ g', g' ≠ g → s'.baseSegments g' = s.baseSegments g'
  idx : (s'.baseSegments g).idx = i
  slabClass : (s'.baseSegments g).slabClass = c
  blkOffset : (s'.baseSegments g).blkOffset = g * geo.segmentBlks
  usedSlabs : (s'.baseSegments g).usedSlabs = (s.baseSegments g).usedSlabs
  clear : ∀ k < geo.slabsPerSegment c, (s'.baseSegments g).bit k = false
  segments : ∀ c' j, (s'.slabClasses c').segments j =
    if c' = c ∧ j = i then some g else (s.slabClasses c').segments j
  numSegments : ∀ c', (s'.slabClasses c').numSegments =
    if c' = c then n else (s.slabClasses c').numSegments
  freeSlabs : ∀ c', (s'.slabClasses c').freeSlabs = (s.slabClasses c').freeSlabs
  segmentTable : s'.segmentTable = update s.segmentTable g true

/-- The segment `g` leaves those to assign. -/
structure Pooled (geo : Geometry) (s s' : Shard) (g : ℕ) : Prop where
  whole : ∃ n ≤ geo.totalSegments, s'.blkAllocated = n * geo.segmentBlks
  reached : ¬ Unused geo s' g
  others : ∀ g', g' ≠ g → (Unused geo s' g' ↔ Unused geo s g')
  sublist : s'.freeSegments.Sublist s.freeSegments
  notSpare : g * geo.segmentBlks ∉ s'.freeSegments
  stays : ∀ b ∈ s.freeSegments, b ≠ g * geo.segmentBlks → b ∈ s'.freeSegments

section

variable {i n : ℕ}

theorem Assigned.holds_self (assigned : Assigned geo s s' c g i n) : s'.holds c g = true := by
  rw [holds_iff, assigned.idx, assigned.segments, if_pos ⟨rfl, rfl⟩]

theorem Assigned.holds_other (assigned : Assigned geo s s' c g i n)
    (free : (s.slabClasses c).segments i = none) {c' g' : ℕ} (other : g' ≠ g) :
    s'.holds c' g' = s.holds c' g' := by
  unfold holds
  rw [assigned.others g' other, assigned.segments]
  split_ifs with here
  · rw [here.1, here.2, free]
    simp [Ne.symm other]
  · rfl

theorem Assigned.class_of_holds (assigned : Assigned geo s s' c g i n) (inv : Inv geo s A)
    (noClass : ∀ c, s.holds c g = false) {c' : ℕ} (holds : s'.holds c' g = true) : c' = c := by
  by_contra other
  rw [holds_iff, assigned.segments, if_neg fun here => other here.1] at holds
  cases (inv.holds_of_listed holds).symm.trans (noClass c')

/-- A class gets a segment. -/
theorem Inv.assigned (inv : Inv geo s A) (assigned : Assigned geo s s' c g i n)
    (pooled : Pooled geo s s' g) (below : g < geo.totalSegments)
    (noClass : ∀ c, s.holds c g = false) (free : (s.slabClasses c).segments i = none)
    (within : i < n) (more : (s.slabClasses c).numSegments ≤ n) (upTo : n ≤ geo.totalSegments) :
    Inv geo s' A := by
  have table : ∀ g', s.segmentTable g' = true → s'.segmentTable g' = true := fun g' set => by
    rw [assigned.segmentTable]
    by_cases same : g' = g
    · rw [same, update_self]
    · rwa [update_of_ne same]
  refine inv.relocate ⟨?held, ?sized, ?frees, ?spare, ?spareOnce, ?whole, ?unused, ?tracked⟩ fun g' => ?slots
  case held =>
    intro c' j g' listed
    rw [assigned.segments] at listed
    rw [assigned.numSegments]
    split_ifs at listed with here
    · obtain ⟨rfl, rfl⟩ := here
      obtain rfl := some.inj listed
      rw [if_pos rfl, assigned.segmentTable, update_self]
      exact ⟨below, within, assigned.idx, assigned.slabClass, assigned.blkOffset, rfl⟩
    · have other : g' ≠ g := by
        rintro rfl
        cases (inv.holds_of_listed listed).symm.trans (noClass c')
      obtain ⟨small, num, index, cls, blk, set⟩ := inv.held c' j g' listed
      rw [assigned.others g' other]
      refine ⟨small, ?_, index, cls, blk, table g' set⟩
      split_ifs with sameClass
      · rw [sameClass] at num
        omega
      · exact num
  case sized =>
    intro c'
    rw [assigned.numSegments]
    split_ifs
    · exact upTo
    · exact inv.sized c'
  case slots =>
    by_cases same : g' = g
    · subst same
      have none := inv.idle g' noClass
      refine .inl ⟨⟨none, fun c' holds => ?_⟩, assigned.usedSlabs.trans none, fun c' holds => ?_⟩
      · cases holds.symm.trans (noClass c')
      · obtain rfl := assigned.class_of_holds inv noClass holds
        exact assigned.clear
    · exact .inr ⟨fun _ => assigned.holds_other free same, by rw [assigned.others g' same],
        by rw [assigned.others g' same]⟩
  case frees =>
    intro c' b pushed
    rw [assigned.freeSlabs] at pushed
    obtain ⟨g', k, set, slot, place⟩ := inv.frees c' b pushed
    exact ⟨g', k, table g' set, slot, place⟩
  case spare =>
    intro b member
    obtain ⟨g', small, rfl, none, once⟩ := inv.spare b (pooled.sublist.mem member)
    have other : g' ≠ g := by
      rintro rfl
      exact pooled.notSpare member
    exact ⟨g', small, rfl, fun c' => (assigned.holds_other free other).trans (none c'),
      fun unused => once ((pooled.others g' other).mp unused)⟩
  case spareOnce => exact inv.spareOnce.sublist pooled.sublist
  case whole => exact pooled.whole
  case unused =>
    intro g' unused c'
    have other : g' ≠ g := by
      rintro rfl
      exact pooled.reached unused
    exact (assigned.holds_other free other).trans
      (inv.unused g' ((pooled.others g' other).mp unused) c')
  case tracked =>
    intro g' small
    rw [assigned.segmentTable]
    by_cases same : g' = g
    · subst same
      rw [update_self]
      exact ⟨iff_of_false Bool.noConfusion pooled.reached, .inr (.inr ⟨c, assigned.holds_self⟩)⟩
    · rw [update_of_ne same, pooled.others g' same]
      obtain ⟨entered, unused | spare | ⟨c', holds⟩⟩ := inv.tracked g' small
      · exact ⟨entered, .inl unused⟩
      · refine ⟨entered, .inr (.inl (pooled.stays _ spare fun blk => same ?_))⟩
        exact Nat.eq_of_mul_eq_mul_right (segmentBlks_pos geo) blk
      · exact ⟨entered, .inr (.inr ⟨c', (assigned.holds_other free same).trans holds⟩)⟩

end

/-- The class has the segment, and none of its slabs is in use. -/
def Granted (geo : Geometry) (c g : ℕ) (s : Shard) : Prop :=
  s.holds c g = true ∧ ∀ k < geo.slabsPerSegment c, (s.baseSegments g).bit k = false

/-- `mcd_osd_assign_segment` on a segment that no class has. -/
theorem Inv.assign {b : ℕ} {free : List ℕ} (inv : Inv geo s A)
    (pooled : Pooled geo s { s with blkAllocated := b, freeSegments := free } g)
    (below : g < geo.totalSegments) (noClass : ∀ c, s.holds c g = false) (answer : GrowAnswer) :
    ∃ s', assignSegment geo c (g * geo.segmentBlks) answer
        { s with blkAllocated := b, freeSegments := free } = .ok (answer.updated, s') ∧
      Inv geo s' A ∧ SameRooms { s with blkAllocated := b, freeSegments := free } s' ∧
      Granted geo c g s' := by
  have region : g * geo.segmentBlks / geo.segmentBlks = g :=
    Nat.mul_div_cancel _ (segmentBlks_pos geo)
  unfold assignSegment
  simp only [region]
  generalize slotEq : (if decide ((s.slabClasses c).numSegments < geo.totalSegments) = true
    then (s.slabClasses c).numSegments else (s.slabClasses c).freeSlot) = i
  obtain ⟨small, slotFree, within⟩ := inv.slot_spec below noClass slotEq.symm
  rw [if_neg (by omega)]
  refine ⟨_, rfl, and_left_comm.mp ⟨⟨fun g' => ?_, rfl, rfl⟩, ?_⟩⟩
  · by_cases same : g' = g
    · subst same
      simp [setSegment, setClass]
    · simp [setSegment, setClass, same]
  generalize assignedTo : (Shard.mk _ _ _ _ _) = s'
  have assigned : Assigned geo s s' c g i (s'.slabClasses c).numSegments := by
    subst assignedTo
    refine ⟨fun g' other => ?_, ?_, ?_, ?_, ?_, fun k slot => ?_, fun c' j => ?_, fun c' => ?_,
      fun c' => ?_, rfl⟩
    · simp [setSegment, setClass, other]
    iterate 4 simp [setSegment, setClass]
    · exact bit_newBitmap answer.memory slot (by simp [setSegment, setClass])
    all_goals
      by_cases same : c' = c
      · subst same
        simp [setSegment, setClass, update_apply]
      · simp [setSegment, setClass, same]
  refine ⟨?_, assigned.holds_self, assigned.clear⟩
  refine inv.assigned assigned ?_ below noClass slotFree ?_ ?_ ?_
  all_goals subst assignedTo
  · exact ⟨pooled.whole, pooled.reached, pooled.others, pooled.sublist, pooled.notSpare, pooled.stays⟩
  all_goals simp only [setClass_self]
  · exact within
  · split_ifs <;> omega
  · have := inv.sized c
    split_ifs with room
    · have := of_decide_eq_true room
      omega
    · omega

theorem rounds_of_sameRooms (rooms : SameRooms s s') : rounds geo c s' = rounds geo c s := by
  unfold rounds
  simp [rooms.nextSlab, rooms.freeSegments, rooms.blkAllocated]

theorem unused_iff {n : ℕ} (allocated : s.blkAllocated = n * geo.segmentBlks) :
    Unused geo s g ↔ g < geo.totalSegments ∧
      if geo.mirrored then g + 1 + n ≤ geo.totalSegments else n ≤ g := by
  have positive := segmentBlks_pos geo
  unfold Unused
  rw [allocated, totalBlks, ← add_mul, Nat.mul_le_mul_right_iff positive,
    Nat.mul_le_mul_right_iff positive]

/-- The segment that a class grows by. -/
def nextSegment (geo : Geometry) (s : Shard) : Option ℕ :=
  if geo.totalBlks < s.blkAllocated + geo.segmentBlks then
    s.freeSegments.head?.map (· / geo.segmentBlks)
  else some ((if geo.mirrored then geo.totalBlks - geo.segmentBlks - s.blkAllocated
    else s.blkAllocated) / geo.segmentBlks)

/-- A class grows by a segment that no class has, or not at all. -/
theorem Inv.grow (inv : Inv geo s A) (answer : GrowAnswer) :
    ∃ grown s', growClass geo c answer s = .ok (grown, s') ∧ Inv geo s' A ∧
      (grown = true → ∀ c', rounds geo c' s' < rounds geo c' s) ∧
      ∀ g, nextSegment geo s = some g → g < geo.totalSegments ∧ (∀ c, s.holds c g = false) ∧
        grown = answer.updated ∧ Granted geo c g s' := by
  obtain ⟨n, upTo, allocated⟩ := inv.whole
  have positive := segmentBlks_pos geo
  have region : ∀ g, g * geo.segmentBlks / geo.segmentBlks = g := fun g =>
    Nat.mul_div_cancel g positive
  unfold growClass nextSegment
  by_cases atEnd : geo.totalBlks < s.blkAllocated + geo.segmentBlks
  · rw [if_pos atEnd, if_pos atEnd]
    cases free : s.freeSegments with
    | nil => exact ⟨false, s, rfl, inv, nofun, nofun⟩
    | cons blk rest =>
      obtain ⟨g, below, rfl, noClass, reached⟩ := inv.spare blk (free ▸ mem_cons_self)
      have fits : ¬ geo.totalBlks < g * geo.segmentBlks + geo.segmentBlks := by
        have := Nat.mul_le_mul_right geo.segmentBlks below
        rw [Nat.succ_mul] at this
        rw [totalBlks]
        omega
      have pooled : Pooled geo s { s with freeSegments := rest } g := by
        refine ⟨inv.whole, reached, fun _ _ => Iff.rfl, free ▸ sublist_cons_self _ _,
          (nodup_cons.mp (free ▸ inv.spareOnce)).1, fun b member other => ?_⟩
        rw [free] at member
        exact (mem_cons.mp member).resolve_left other
      obtain ⟨s', assigned, inv', rooms, granted⟩ := inv.assign (c := c) pooled below noClass answer
      refine ⟨answer.updated, s', ?_, inv', fun _ c' => ?_, ?_⟩
      · simp [if_neg fits, assigned]
      · rw [rounds_of_sameRooms rooms]
        unfold rounds
        rw [free, length_cons]
        dsimp only
        omega
      · rw [head?_cons, map_some, region]
        rintro _ ⟨⟩
        exact ⟨below, noClass, rfl, granted⟩
  · have more : n + 1 ≤ geo.totalSegments := by
      rw [allocated, totalBlks, not_lt, ← Nat.succ_mul] at atEnd
      exact Nat.le_of_mul_le_mul_right atEnd positive
    have grownTo : s.blkAllocated + geo.segmentBlks = (n + 1) * geo.segmentBlks := by
      rw [allocated, Nat.succ_mul]
    have unusedEq : ∀ g, Unused geo { s with blkAllocated := (n + 1) * geo.segmentBlks } g ↔ _ :=
      fun g => unused_iff (n := n + 1) rfl
    -- the segment at the end of those in use, or before them
    obtain ⟨g, blk, unused, reached, others⟩ : ∃ g,
        (if geo.mirrored then geo.totalBlks - geo.segmentBlks - s.blkAllocated else s.blkAllocated) =
          g * geo.segmentBlks ∧ Unused geo s g ∧
        ¬ Unused geo { s with blkAllocated := (n + 1) * geo.segmentBlks } g ∧
        ∀ g', g' ≠ g → (Unused geo { s with blkAllocated := (n + 1) * geo.segmentBlks } g' ↔
          Unused geo s g') := by
      simp only [unused_iff (n := n) allocated, unusedEq]
      cases mirrored : geo.mirrored with
      | true =>
        refine ⟨geo.totalSegments - (n + 1), ?_, ?_⟩
        · rw [if_pos rfl, Nat.sub_mul, Nat.sub_sub, add_comm, grownTo, totalBlks]
        · simp only [if_true]
          exact ⟨by omega, by omega, fun g' other => by omega⟩
      | false =>
        refine ⟨n, ?_, ?_⟩
        · rw [if_neg Bool.false_ne_true, allocated]
        · simp only [false_eq_true, if_false]
          exact ⟨by omega, by omega, fun g' other => by omega⟩
    have pooled : Pooled geo s { s with blkAllocated := (n + 1) * geo.segmentBlks } g := by
      refine ⟨⟨n + 1, more, rfl⟩, reached, others, List.Sublist.refl _, fun member => ?_,
        fun _ member _ => member⟩
      obtain ⟨g', _, same, _, once⟩ := inv.spare _ member
      obtain rfl : g = g' := Nat.eq_of_mul_eq_mul_right positive same
      exact once unused
    obtain ⟨s', assigned, inv', rooms, granted⟩ :=
      inv.assign (c := c) pooled unused.1 (inv.unused g unused) answer
    refine ⟨answer.updated, s', ?_, inv', fun _ c' => ?_, ?_⟩
    · rw [if_neg atEnd]
      simp [blk, grownTo, assigned]
    · rw [rounds_of_sameRooms rooms]
      unfold rounds
      dsimp only
      omega
    · rw [if_neg atEnd, blk, region]
      rintro _ ⟨⟩
      exact ⟨unused.1, inv.unused g unused, rfl, granted⟩

theorem trimSegments_le (segments : ℕ → Option ℕ) (n : ℕ) : trimSegments segments n ≤ n := by
  induction n with
  | zero => exact le_rfl
  | succ n ih =>
    rw [trimSegments]
    split_ifs
    · omega
    · exact le_rfl

/-- No segment in use is cut off. -/
theorem lt_trimSegments {segments : ℕ → Option ℕ} {n i : ℕ} (listed : (segments i).isSome = true)
    (below : i < n) : i < trimSegments segments n := by
  induction n with
  | zero => omega
  | succ n ih =>
    rw [trimSegments]
    split_ifs with free
    · have : i ≠ n := by
        rintro rfl
        simp [isNone_iff_eq_none.mp free] at listed
      exact ih (by omega)
    · exact below

/-- The segment `g` left the class and is one of the free segments. -/
structure Released (s s' : Shard) (c g : ℕ) : Prop where
  seg : ∀ g, s'.baseSegments g = { s.baseSegments g with nextSlab := (s'.baseSegments g).nextSlab }
  segments : ∀ c' j, (s'.slabClasses c').segments j =
    if c' = c ∧ j = (s.baseSegments g).idx then none else (s.slabClasses c').segments j
  numSegments : ∀ c', (s'.slabClasses c').numSegments = if c' = c then
    trimSegments (s'.slabClasses c).segments (s.slabClasses c).numSegments
    else (s.slabClasses c').numSegments
  freeSlabs : ∀ c', (s'.slabClasses c').freeSlabs = (s.slabClasses c').freeSlabs
  blkAllocated : s'.blkAllocated = s.blkAllocated
  freeSegments : s'.freeSegments = (s.baseSegments g).blkOffset :: s.freeSegments
  segmentTable : s'.segmentTable = s.segmentTable

theorem Released.holds_eq (released : Released s s' c g) (inv : Inv geo s A)
    (holds : s.holds c g = true) (c' g' : ℕ) :
    s'.holds c' g' = (s.holds c' g' && decide (g' ≠ g)) := by
  have listed := holds_iff.mp holds
  unfold Shard.holds
  rw [released.seg, released.segments]
  dsimp only
  split_ifs with here
  · rw [here.1, here.2, listed]
    simp [eq_comm]
  · by_cases same : g' = g
    · subst same
      have elsewhere : ¬ (s.slabClasses c').segments (s.baseSegments g').idx = some g' := fun also =>
        here ⟨inv.class_unique (inv.holds_of_listed also) holds, rfl⟩
      simp [elsewhere]
    · simp [same]

/-- A segment without slabs in use can leave its class. -/
theorem Inv.released (inv : Inv geo s A) (holds : s.holds c g = true)
    (empty : (s.baseSegments g).usedSlabs = 0) (released : Released s s' c g) : Inv geo s' A := by
  have holdsEq := released.holds_eq inv holds
  have unusedEq : ∀ g, Unused geo s' g ↔ Unused geo s g := fun _ => unused_congr released.blkAllocated
  obtain ⟨below, _, _, _, blk, _⟩ := inv.held c _ g (holds_iff.mp holds)
  have noClass : ∀ c', s'.holds c' g = false := fun c' => by simp [holdsEq]
  refine inv.relocate ⟨?held, ?sized, ?frees, ?spare, ?spareOnce, ?whole, ?unused, ?tracked⟩ fun g' => ?slots
  case held =>
    intro c' i g' listed
    have old := listed
    rw [released.segments] at old
    split_ifs at old
    obtain ⟨small, num, index, cls, blk', set⟩ := inv.held c' i g' old
    rw [released.seg, released.segmentTable, released.numSegments]
    refine ⟨small, ?_, index, cls, blk', set⟩
    split_ifs with sameClass
    · subst sameClass
      exact lt_trimSegments (by rw [listed]; rfl) num
    · exact num
  case sized =>
    intro c'
    rw [released.numSegments]
    split_ifs
    · exact (trimSegments_le _ _).trans (inv.sized c)
    · exact inv.sized c'
  case slots =>
    by_cases same : g' = g
    · subst same
      have none := inv.used c g' holds
      rw [empty, eq_comm, Finset.card_eq_zero, Finset.filter_eq_empty_iff] at none
      refine .inl ⟨⟨empty, fun c' holds' k slot => ?_⟩, by rwa [released.seg], fun c' holds' => ?_⟩
      · obtain rfl := inv.class_unique holds' holds
        exact eq_false_iff.mpr (none (Finset.mem_range.mpr slot))
      · cases holds'.symm.trans (noClass c')
    · exact .inr ⟨fun c' => by simp [holdsEq, same], by rw [released.seg], by rw [released.seg]⟩
  case frees =>
    intro c' b pushed
    rw [released.segmentTable]
    rw [released.freeSlabs] at pushed
    exact inv.frees c' b pushed
  case spare =>
    intro b member
    rw [released.freeSegments, mem_cons] at member
    rcases member with rfl | old
    · refine ⟨g, below, blk, noClass, fun unused => ?_⟩
      cases holds.symm.trans (inv.unused g ((unusedEq g).mp unused) c)
    · obtain ⟨g', small, place, none, once⟩ := inv.spare b old
      refine ⟨g', small, place, fun c' => ?_, fun unused => once ((unusedEq g').mp unused)⟩
      rw [holdsEq, none c']
      rfl
  case spareOnce =>
    rw [released.freeSegments, nodup_cons]
    refine ⟨fun member => ?_, inv.spareOnce⟩
    obtain ⟨g', _, place, none, _⟩ := inv.spare _ member
    obtain rfl : g = g' := Nat.eq_of_mul_eq_mul_right (segmentBlks_pos geo) (blk.symm.trans place)
    cases holds.symm.trans (none c)
  case whole => exact released.blkAllocated ▸ inv.whole
  case unused =>
    intro g' unused c'
    rw [holdsEq, inv.unused g' ((unusedEq g').mp unused) c']
    rfl
  case tracked =>
    intro g' small
    obtain ⟨entered, unused | spare | ⟨c', holds'⟩⟩ := inv.tracked g' small
    all_goals
      rw [released.segmentTable, unusedEq, released.freeSegments, mem_cons, blk]
      refine ⟨entered, ?_⟩
    · exact .inl unused
    · exact .inr (.inl (.inr spare))
    · by_cases same : g' = g
      · exact .inr (.inl (.inl (same ▸ rfl)))
      · exact .inr (.inr ⟨c', by simp [holdsEq, holds', same]⟩)

/-- A class gives back an empty segment. -/
theorem Inv.shrink (inv : Inv geo s A) (g : ℕ) (updated : Bool) :
    Inv geo (shrinkClass geo s g updated) A := by
  unfold shrinkClass
  by_cases notHeld : s.holds (s.baseSegments g).slabClass g = false
  · rwa [if_pos notHeld]
  · rw [if_neg notHeld]
    have holds := not_eq_false _ ▸ notHeld
    by_cases empty : (s.baseSegments g).usedSlabs = 0
    · rw [if_pos empty]
      unfold freeSegment
      cases updated with
      | true =>
        refine inv.released holds empty ⟨fun g' => ?_, fun c' j => ?_, fun c' => ?_, fun c' => ?_,
          rfl, rfl, rfl⟩
        · by_cases same : g' = g
          · subst same
            simp [setSegment, setClass]
          · simp [setSegment, setClass, same]
        all_goals
          by_cases same : c' = (s.baseSegments g).slabClass
          · subst same
            simp [setSegment, setClass, update_apply]
          · simp [setSegment, setClass, same]
      | false =>
        -- the class's segment is put back
        have listed := holds_iff.mp holds
        have back : update (s.slabClasses (s.baseSegments g).slabClass).segments
            (s.baseSegments g).idx (some g) =
            (s.slabClasses (s.baseSegments g).slabClass).segments := by
          rw [← listed, update_eq_self]
        simpa [setClass, back] using inv
    · rwa [if_neg empty]

theorem inv_pushFree {k : ℕ} (inv : Inv geo s A) (table : s.segmentTable g = true)
    (inside : k < geo.slabsPerSegment c) : Inv geo (s.pushFree geo c (slotBlk geo c g k)) A := by
  unfold pushFree
  dsimp only
  split_ifs
  · refine inv.similar (similar_setClass rfl rfl ?_)
    exact forall_mem_cons.mpr ⟨.inr ⟨g, k, table, inside, rfl⟩, fun _ => .inl⟩
  · exact inv

/-- A slab is given back. -/
theorem Inv.dealloc {address : ℕ} (inv : Inv geo s A) (inUse : A address = some c)
    (async updated : Bool) : ∃ s', slabDealloc geo address async updated s = .ok s' ∧
      Inv geo s' (settle A address c 1 false) := by
  obtain ⟨g, k, holds, inside, rfl, set⟩ := (inv.live address c).mp inUse
  obtain ⟨_, _, _, cls, blk, table⟩ := inv.held c _ g (holds_iff.mp holds)
  have inside' : k + 1 ≤ geo.slabsPerSegment (s.baseSegments g).slabClass := by rwa [cls]
  obtain ⟨s₁, cleared, rewritten⟩ := deallocLow_spec inside' fun j lower below => by
    rwa [show j = k by omega]
  rw [cls, blk] at cleared
  have cleared' : deallocLow geo s g (slotBlk geo c g k) 1 = .ok s₁ := cleared
  have inv₁ := inv.rewrite holds inside rewritten
  have cls₁ : (s₁.baseSegments g).slabClass = c :=
    inv₁.class_eq ((rewritten.frame.sameLayout geo).holds_eq.trans holds)
  obtain ⟨s₂, pushed, inv₂⟩ : ∃ s₂,
      (if async = true then s₁ else s₁.pushFree geo c (slotBlk geo c g k)) = s₂ ∧
        Inv geo s₂ (settle A (slotBlk geo c g k) c 1 false) := by
    refine ⟨_, rfl, ?_⟩
    split_ifs
    · exact inv₁
    · exact inv_pushFree inv₁ (by rw [rewritten.frame.segmentTable]; exact table) inside
  unfold slabDealloc
  simp only [slotBlk_div inside, table, true_eq_false, if_false, cleared', cls₁, pushed]
  split_ifs
  · exact ⟨_, rfl, inv₂.shrink g updated⟩
  · exact ⟨_, rfl, inv₂⟩

end Zetascale.Flash.Slabs
