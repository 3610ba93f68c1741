import Zetascale.Flash.SlabSegments

/-!
# Slab allocations are disjoint

Every way to a slab ends in the test-and-set of a slot, and the loop over them ends. What can go
wrong is the place: a request for three or more slabs takes consecutive slots from a striped start,
and leaves the segment if the start is too far behind.
-/

namespace Zetascale.Flash.Slabs

open Zetascale.Stripes List Option Machine Slabs.Geometry SameRooms

variable {geo : Geometry} {s s' : Shard} {A : Ledger} {c g : ℕ}

theorem Yields.similar {s'' : Shard} {r : Option ℕ} (yields : Yields geo s A c (r, s'))
    (similar : Similar geo s' s'') (rooms : SameRooms s' s'') : Yields geo s A c (r, s'') := by
  cases r with
  | none => exact ⟨yields.1.similar similar, yields.2.trans rooms⟩
  | some blk =>
    obtain ⟨⟨⟨g, k, holds, inside, place⟩, disjoint⟩, inv⟩ := yields
    exact ⟨⟨⟨g, k, similar.holds_eq.trans holds, inside, place⟩, disjoint⟩, inv.similar similar⟩

theorem Yields.of_sameRooms {r : Option ℕ × Shard} (rooms : SameRooms s s')
    (yields : Yields geo s' A c r) : Yields geo s A c r := by
  obtain ⟨_ | blk, s''⟩ := r
  · exact ⟨yields.1, rooms.trans yields.2⟩
  · exact yields

theorem Sound.of_sameRooms {outcome : Except Fault (Option ℕ × Shard)} (rooms : SameRooms s s')
    (sound : Sound (Yields geo s' A c) outcome) : Sound (Yields geo s A c) outcome := by
  rcases sound with aborted | ⟨r, returned, yields⟩
  · exact .inl aborted
  · exact .inr ⟨r, returned, yields.of_sameRooms rooms⟩

theorem similar_setHand (hand : ℕ) : Similar geo s (s.setHand c hand) :=
  similar_setClass rfl rfl fun _ member => .inl member

theorem sameRooms_setHand (hand : ℕ) : SameRooms s (s.setHand c hand) :=
  sameRooms_setClass

/-- From the list of free slabs. -/
theorem getFreeSlab_sound {l : List ℕ} (inv : Inv geo s A)
    (list : (s.slabClasses c).freeSlabs = l) :
    Sound (Yields geo s A c) (getFreeSlab geo c l s) := by
  induction l generalizing s with
  | nil => exact .inr ⟨(none, s), by rw [getFreeSlab], inv, refl s⟩
  | cons b rest ih =>
    have popped : Similar geo s (s.setClass c { s.slabClasses c with freeSlabs := rest }) :=
      similar_setClass rfl rfl fun b' member => .inl (list ▸ mem_cons_of_mem b member)
    have rooms : SameRooms s (s.setClass c { s.slabClasses c with freeSlabs := rest }) :=
      sameRooms_setClass
    have onward := (ih (inv.similar popped) (by rw [setClass_self])).of_sameRooms rooms
    obtain ⟨g, k, table, inside, rfl⟩ := inv.frees c b (list ▸ mem_cons_self)
    rw [getFreeSlab]
    simp only [slotBlk_div inside, table, Bool.true_eq_false, if_false]
    by_cases holds : s.holds c g = true
    · rw [if_neg (by simp [holds]), inv.blkOffset holds, slotBlk_sub]
      rcases (inv.similar popped).slotAlloc (popped.holds_eq.trans holds) inside with
        failed | ⟨s', done, yields⟩
      · rw [failed]
        exact onward
      · rw [done]
        exact .inr ⟨_, rfl, yields⟩
    · rw [if_pos (by simpa using holds)]
      exact onward

/-- From the first word of a segment. -/
theorem scanFirstWords_sound (left : ℕ) (inv : Inv geo s A) :
    Sound (Yields geo s A c) (scanFirstWords geo c left s) := by
  induction left generalizing s with
  | zero => exact .inr ⟨(none, s), by rw [scanFirstWords], inv, refl s⟩
  | succ left ih =>
    have onward := fun hand : ℕ =>
      (ih (inv.similar (similar_setHand (c := c) hand))).of_sameRooms (sameRooms_setHand hand)
    rw [scanFirstWords]
    simp only [inv.getAndLock]
    cases listed : (s.slabClasses c).segments
        ((s.slabClasses c).scanHand % (s.slabClasses c).numSegments) with
    | none => exact onward _
    | some g =>
      have holds := inv.holds_of_listed listed
      simp only []
      by_cases free : ~~~ (s.baseSegments g).mosBitmap 0 ≠ 0 ∧
          lowestClear ((s.baseSegments g).mosBitmap 0) < geo.slabsPerSegment c
      · rw [if_pos free]
        rcases inv.slotAlloc holds free.2 with failed | ⟨s', done, yields⟩
        · simp only [failed]
          exact onward _
        · simp only [done]
          refine .inr ⟨_, rfl, ?_⟩
          rw [inv.blkOffset holds]
          exact yields
      · rw [if_neg free]
        exact onward _

/-- The scan of a segment's words ends with a slot, or leaves everything as it was. -/
theorem scanWords_spec (mapOffset : ℕ) (inv : Inv geo s A) (holds : s.holds c g = true) :
    scanWords geo c g mapOffset s = .ok (none, s) ∨
      ∃ offs s', scanWords geo c g mapOffset s = .ok (some offs, s') ∧
        Yields geo s A c (some (slotBlk geo c g offs), s') := by
  induction left : geo.slabsPerPth c - mapOffset using Nat.strong_induction_on generalizing mapOffset with
  | _ left ih =>
    rw [scanWords]
    by_cases more : mapOffset < geo.slabsPerPth c
    · have onward := ih (geo.slabsPerPth c - (mapOffset + (64 - mapOffset % 64))) (by omega)
        (mapOffset + (64 - mapOffset % 64)) rfl
      rw [if_pos more]
      simp only []
      generalize (if mapOffset % 64 = 0 then (s.baseSegments g).mosBitmap (mapOffset / 64)
        else (s.baseSegments g).mosBitmap (mapOffset / 64) |||
          BitVec.ofNat 64 (2 ^ (mapOffset % 64) - 1)) = mapValue
      by_cases free : ~~~ mapValue ≠ 0 ∧
          mapOffset / 64 * 64 + lowestClear mapValue < geo.slabsPerPth c
      · have inside : mapOffset / 64 * 64 + lowestClear mapValue < geo.slabsPerSegment c :=
          lt_of_lt_of_le free.2 (Nat.div_le_self _ _)
        simp only [if_pos free]
        rcases inv.slotAlloc holds inside with failed | ⟨s', done, yields⟩
        · simp only [failed]
          exact onward
        · simp only [done]
          exact .inr ⟨_, s', rfl, yields⟩
      · simp only [if_neg free]
        exact onward
    · rw [if_neg more]
      exact .inl rfl

/-- From any word of a segment. -/
theorem scanSegments_sound (left hand : ℕ) (inv : Inv geo s A) :
    Sound (Yields geo s A c) (scanSegments geo c left hand s) := by
  induction left generalizing hand with
  | zero =>
    exact .inr ⟨(none, s.setHand c hand), by rw [scanSegments],
      inv.similar (similar_setHand hand), sameRooms_setHand hand⟩
  | succ left ih =>
    rw [scanSegments]
    simp only [inv.getAndLock]
    cases listed : (s.slabClasses c).segments
        (hand / geo.slabsPerPth c % (s.slabClasses c).numSegments) with
    | none => exact ih _
    | some g =>
      have holds := inv.holds_of_listed listed
      by_cases full : geo.slabsPerSegment c ≤ (s.baseSegments g).usedSlabs
      · simp only [if_pos full]
        exact ih _
      · simp only [if_neg full]
        rcases scanWords_spec (hand % geo.slabsPerPth c) inv holds with
          failed | ⟨offs, s', done, yields⟩
        · simp only [failed]
          exact ih _
        · simp only [done]
          refine .inr ⟨_, rfl, ?_⟩
          rw [inv.blkOffset holds]
          exact yields.similar (similar_setHand _) (sameRooms_setHand _)

/-- `mcd_fth_osd_get_slab` returns a slab that is not in use, or changes nothing. -/
theorem getSlab_sound (inv : Inv geo s A) : Sound (Yields geo s A c) (getSlab geo c s) := by
  unfold getSlab
  rcases getFreeSlab_sound inv rfl with aborted | ⟨⟨_ | blk, s'⟩, returned, yields⟩
  · exact .inl (by rw [aborted])
  · simp only [returned]
    by_cases empty : (s'.slabClasses c).numSegments = 0
    · exact .inr ⟨_, if_pos empty, yields⟩
    · have scanned : Sound (Yields geo s A c) (if geo.slabsPerPth c ≤ 1 then
          if 64 < geo.slabsPerSegment c then .error .abort
          else scanFirstWords geo c (s'.slabClasses c).numSegments s'
        else if (s'.slabClasses c).usedSlabs < (s'.slabClasses c).totalSlabs then
          scanSegments geo c (s'.slabClasses c).numSegments (s'.slabClasses c).scanHand s'
        else .ok (none, s')) := by
        split_ifs with small large room
        · exact .inl rfl
        · exact (scanFirstWords_sound _ yields.1).of_sameRooms yields.2
        · exact (scanSegments_sound _ _ yields.1).of_sameRooms yields.2
        · exact .inr ⟨_, rfl, yields⟩
      rw [if_neg empty]
      rcases scanned with aborted | ⟨⟨_ | blk, s''⟩, returned, yields'⟩
      · exact .inl (by rw [aborted])
      · rw [returned]
        cases geo.evictToFree with
        | true => exact .inl rfl
        | false => exact .inr ⟨_, rfl, yields'⟩
      · rw [returned]
        exact .inr ⟨_, rfl, yields'⟩
  · simp only [returned]
    exact .inr ⟨_, rfl, yields⟩

variable {count blocks : ℕ}

/-- A call on several slabs of the class. -/
def Gives (geo : Geometry) (A : Ledger) (c : ℕ) : Option (ℕ × ℕ) × Shard → Prop
  | (none, s') => Inv geo s' A
  | (some (n, blk), s') => Placed geo s' A c blk n ∧ Inv geo s' (settle A blk c n true)

theorem setSegment_self {segment : Segment} : (s.setSegment g segment).baseSegments g = segment :=
  Function.update_self _ _ _

theorem setSegment_of_ne {g' : ℕ} {segment : Segment} (other : g' ≠ g) :
    (s.setSegment g segment).baseSegments g' = s.baseSegments g' :=
  Function.update_of_ne other _ _

theorem similar_advance (count : ℕ) : Similar geo s (s.advance g count) := by
  refine ⟨⟨fun g' => ?_, fun _ => rfl, fun _ => rfl, fun _ _ => .inl, rfl, rfl, rfl⟩, fun g' => ?_⟩
  all_goals
    by_cases same : g' = g
    · rw [same, Shard.advance, setSegment_self]
      simp
    · rw [Shard.advance, setSegment_of_ne same]
      simp

/-- Slabs that were never used run out. -/
theorem rounds_advance_lt (below : g < geo.totalSegments) (positive : 0 < count)
    (room : (s.baseSegments g).nextSlab + count ≤ geo.slabsPerSegment c) :
    rounds geo c (s.advance g count) < rounds geo c s := by
  refine Nat.add_lt_add_right (sum_lt_sum _ _ (fun g' _ => ?_) ⟨g, mem_range.mpr below, ?_⟩) _
  · by_cases same : g' = g
    · subst same
      rw [Shard.advance, setSegment_self]
      dsimp only
      omega
    · rw [Shard.advance, setSegment_of_ne same]
  · rw [Shard.advance, setSegment_self]
    dsimp only
    omega

theorem Frame.sameRooms (frame : Frame s s' g) : SameRooms s s' := by
  refine ⟨fun g' => ?_, frame.freeSegments, frame.blkAllocated⟩
  by_cases same : g' = g
  · rw [same, frame.nextSlab]
  · rw [frame.others g' same]

/-- Slabs given out and taken back were not in use before. -/
theorem Inv.settle_settle {k : ℕ} (inv : Inv geo s A) (holds : s.holds c g = true)
    (inside : k + count ≤ geo.slabsPerSegment c)
    (clear : ∀ j, k ≤ j → j < k + count → (s.baseSegments g).bit j = false) :
    settle (settle A (slotBlk geo c g k) c count true) (slotBlk geo c g k) c count false = A := by
  funext b
  unfold settle
  by_cases settled : ∃ i < count, b = slotBlk geo c g k + i * Geometry.slabBlksize c
  · rw [if_pos settled, if_neg Bool.false_ne_true]
    obtain ⟨i, below, rfl⟩ := settled
    cases inUse : A (slotBlk geo c g k + i * Geometry.slabBlksize c) with
    | none => rfl
    | some c' =>
      obtain ⟨g', k', holds', slot, sameBlk, set⟩ := (inv.live _ _).mp inUse
      rw [slotBlk_add] at sameBlk
      obtain rfl : g' = g := by
        have region : slotBlk geo c g (k + i) / geo.segmentBlks = g := slotBlk_div (by omega)
        rw [sameBlk, slotBlk_div slot] at region
        exact region
      obtain rfl : c' = c := (inv.class_eq holds').symm.trans (inv.class_eq holds)
      obtain rfl := slotBlk_injective sameBlk
      rw [clear _ (by omega) (by omega)] at set
      exact Bool.noConfusion set
  · rw [if_neg settled, if_neg settled]

/-- `mcd_fth_osd_slab_alloc_low` with room for slabs that fit: it returns them, or moves on past
them. -/
theorem slabAllocLow_spec (inv : Inv geo s A) (holds : s.holds c g = true)
    (fits : geo.Fits c count) (positive : 0 < count)
    (room : (s.baseSegments g).nextSlab + count ≤ geo.slabsPerSegment c) :
    (∃ blk s', slabAllocLow geo s g count = .ok (some blk, s') ∧
        Gives geo A c (some (count, blk), s')) ∨
      ∃ s', slabAllocLow geo s g count = .ok (none, s') ∧ Inv geo s' A ∧
        rounds geo c s' < rounds geo c s := by
  obtain ⟨below, _, _, cls, blk, _⟩ := inv.held c _ g (holds_iff.mp holds)
  have inside := place_add_le fits positive room
  have similar : Similar geo s (s.advance g count) := similar_advance count
  have inv₁ := inv.similar similar
  have holds₁ : (s.advance g count).holds c g = true := similar.holds_eq.trans holds
  have cls₁ := inv₁.class_eq holds₁
  have inside₁ : place geo c (s.baseSegments g).nextSlab + count ≤
      geo.slabsPerSegment ((s.advance g count).baseSegments g).slabClass := by rwa [cls₁]
  obtain ⟨i, s₂, taken, upTo, rewritten⟩ := takeSlots_spec inside₁
  have upToEnd : place geo c (s.baseSegments g).nextSlab + i ≤ geo.slabsPerSegment c := by omega
  have inv₂ := inv₁.rewrite holds₁ upToEnd rewritten
  have holds₂ : s₂.holds c g = true := (rewritten.frame.sameLayout geo).holds_eq.trans holds₁
  have cls₂ := inv₂.class_eq holds₂
  unfold slabAllocLow
  simp only [cls, blk, if_neg (not_lt.mpr room), slotBlk_place, slotBlk_sub, taken]
  by_cases short : i < count
  · -- a slot further on was set: the ones before it are given back
    have inside₂ : place geo c (s.baseSegments g).nextSlab + i ≤
        geo.slabsPerSegment (s₂.baseSegments g).slabClass := by rwa [cls₂]
    obtain ⟨s₃, freed, cleared⟩ := deallocLow_spec inside₂ fun k lower below => by
      rw [rewritten.bits, if_pos ⟨lower, below⟩]
    rw [cls₂, inv₂.blkOffset holds₂] at freed
    have freed' : deallocLow geo s₂ g (slotBlk geo c g (place geo c (s.baseSegments g).nextSlab)) i =
        .ok s₃ := freed
    simp only [if_pos short, freed']
    refine .inr ⟨s₃, rfl, ?_, ?_⟩
    · have inv₃ := inv₂.rewrite holds₂ upToEnd cleared
      rwa [inv₁.settle_settle holds₁ upToEnd rewritten.before] at inv₃
    · rw [rounds_of_sameRooms (rewritten.frame.trans cleared.frame).sameRooms]
      exact rounds_advance_lt below positive room
  · obtain rfl : i = count := by omega
    rw [if_neg short]
    exact .inl ⟨_, s₂, rfl, ⟨⟨g, _, holds₂, inside, rfl⟩,
      inv₁.disjoint_of_clear holds₁ inside rewritten.before⟩, inv₂⟩

/-- A segment that the look from the end of the list stops at has room. -/
theorem lastUnfilled_spec (inv : Inv geo s A) (c count i idx : ℕ) :
    lastUnfilled geo s c count i idx = idx ∨
      ∃ g, (s.slabClasses c).segments (lastUnfilled geo s c count i idx) = some g ∧
        (s.baseSegments g).nextSlab + count ≤ geo.slabsPerSegment c := by
  induction i generalizing idx with
  | zero => exact .inl (by rw [lastUnfilled])
  | succ i ih =>
    rw [lastUnfilled]
    simp only [inv.getAndLock]
    cases listed : (s.slabClasses c).segments i with
    | none => exact ih idx
    | some g =>
      by_cases full : geo.slabsPerSegment c < (s.baseSegments g).nextSlab + count
      · simp only [if_pos full]
        exact .inl trivial
      · simp only [if_neg full]
        rcases ih i with here | further
        · refine .inr ⟨g, ?_, not_lt.mp full⟩
          rw [here, listed]
        · exact .inr further

/-- How the look for unused slabs ends. -/
def Tries (geo : Geometry) (s : Shard) (A : Ledger) (c count : ℕ) : Tried × Shard → Prop
  | (.got blk, s') => Gives geo A c (some (count, blk), s')
  | (.again, s') => Inv geo s' A ∧ rounds geo c s' < rounds geo c s
  | (.none, s') => Inv geo s' A ∧ rounds geo c s' ≤ rounds geo c s

/-- From a segment with slabs that were never used. -/
theorem tryUnfilled_spec (inv : Inv geo s A) (fits : geo.Fits c count) (positive : 0 < count) :
    ∃ r, tryUnfilled geo c count s = .ok r ∧ Tries geo s A c count r := by
  unfold tryUnfilled
  rcases lastUnfilled_spec inv c count (s.slabClasses c).numSegments
    (s.slabClasses c).numSegments with none | ⟨g, listed, room⟩
  · exact ⟨_, if_pos none, inv, le_rfl⟩
  · by_cases none : lastUnfilled geo s c count (s.slabClasses c).numSegments
        (s.slabClasses c).numSegments = (s.slabClasses c).numSegments
    · exact ⟨_, if_pos none, inv, le_rfl⟩
    · simp only [if_neg none, inv.getAndLock, listed, if_neg (not_lt.mpr room)]
      rcases slabAllocLow_spec inv (inv.holds_of_listed listed) fits positive room with
        ⟨blk, s', done, gives⟩ | ⟨s', failed, inv', fewer⟩
      · simp only [done]
        exact ⟨_, rfl, gives⟩
      · simp only [failed]
        refine ⟨_, rfl, ?_⟩
        split_ifs
        · exact ⟨inv', le_of_lt fewer⟩
        · exact ⟨inv', fewer⟩

/-- What the allocation can do, short of an assertion. -/
def AllocSound (geo : Geometry) (A : Ledger) (c : ℕ)
    (outcome : Except Fault (Option (ℕ × ℕ) × Shard)) : Prop :=
  outcome = .error .abort ∨ ∃ r, outcome = .ok r ∧ Gives geo A c r

/-- The loop ends, with slabs or without. -/
theorem slabAllocLoop_sound {answers : ℕ → GrowAnswer} {fuel : ℕ} (fits : geo.Fits c count)
    (positive : 0 < count) (inv : Inv geo s A) (enough : rounds geo c s < fuel) :
    AllocSound geo A c (slabAllocLoop geo c count answers fuel s) := by
  induction fuel generalizing s with
  | zero => omega
  | succ fuel ih =>
    rw [slabAllocLoop]
    obtain ⟨⟨blk | _ | _, s₁⟩, tried, tries⟩ := tryUnfilled_spec inv fits positive
    · simp only [tried]
      exact .inr ⟨_, rfl, tries⟩
    · simp only [tried]
      exact ih tries.1 (by have := tries.2; omega)
    · simp only [tried]
      have looked : Sound (Yields geo s₁ A c)
          (if count < 2 then getSlab geo c s₁ else .ok (none, s₁)) := by
        split_ifs
        · exact getSlab_sound tries.1
        · exact .inr ⟨_, rfl, tries.1, refl s₁⟩
      rcases looked with aborted | ⟨⟨_ | blk, s₂⟩, returned, yields⟩
      · exact .inl (by rw [aborted])
      · simp only [returned]
        obtain ⟨grown, s₃, grew, inv₃, fewer, _⟩ := yields.1.grow (c := c) (answers fuel)
        simp only [grew]
        cases grown with
        | true =>
          refine ih inv₃ ?_
          have fewer' := fewer rfl c
          have upTo := tries.2
          rw [rounds_of_sameRooms yields.2] at fewer'
          omega
        | false =>
          rcases getSlab_sound (c := c) inv₃ with aborted | ⟨⟨_ | blk, s₄⟩, last, yields'⟩
          · exact .inl (by simp only [aborted])
          · simp only [last]
            exact .inr ⟨_, rfl, yields'.1⟩
          · simp only [last]
            exact .inr ⟨_, rfl, yields'⟩
      · simp only [returned]
        exact .inr ⟨_, rfl, yields⟩

/-- `mcd_fth_osd_slab_alloc` of slabs that fit ends, within the bitmaps, and what it returns is
placed well. -/
theorem slabAlloc_sound (answers : ℕ → GrowAnswer)
    (fits : geo.Fits (classTable blocks) count) (positive : 0 < count) (inv : Inv geo s A) :
    AllocSound geo A (classTable blocks) (slabAlloc geo blocks count answers s) := by
  unfold slabAlloc
  have looked : Sound (Yields geo s A (classTable blocks)) (if count < 2 then
      getFreeSlab geo (classTable blocks) (s.slabClasses (classTable blocks)).freeSlabs s
      else .ok (none, s)) := by
    split_ifs
    · exact getFreeSlab_sound inv rfl
    · exact .inr ⟨_, rfl, inv, refl s⟩
  rcases looked with aborted | ⟨⟨_ | blk, s₁⟩, returned, yields⟩
  · exact .inl (by simp only [aborted])
  · simp only [returned]
    exact slabAllocLoop_sound fits positive yields.1 (lt_add_one _)
  · simp only [returned]
    exact .inr ⟨_, rfl, yields⟩

/-- The calls of the slab allocator. -/
inductive Call where
  | alloc (blocks count : ℕ) (answers : ℕ → GrowAnswer)
  | dealloc (address : ℕ) (async updated : Bool)

/-- A shard, and the slabs that calls returned and that were not given back. -/
structure Books where
  shard : Shard := {}
  allocated : Ledger := fun _ => none

/-- One call. -/
def Books.step (geo : Geometry) (books : Books) : Call → Option Books
  | .alloc blocks count answers =>
    match slabAlloc geo blocks count answers books.shard with
    | .error _ => none
    | .ok (none, s) => some ⟨s, books.allocated⟩
    | .ok (some (n, blk), s) => some ⟨s, settle books.allocated blk (classTable blocks) n true⟩
  | .dealloc address async updated =>
    match slabDealloc geo address async updated books.shard with
    | .error _ => none
    | .ok s => some ⟨s, settle books.allocated address 0 1 false⟩

/-- Objects have up to `MCD_OSD_OBJ_MAX_BLKS` blocks; only a slab in use is given back. -/
def Legal (books : Books) : Call → Prop
  | .alloc blocks count _ => blocks ≤ 4095 ∧ 1 ≤ count
  | .dealloc address _ _ => books.allocated address ≠ none

/-- The slabs that a call asks for fit wherever a segment's next slab is. -/
def CallFits (geo : Geometry) : Call → Prop
  | .alloc blocks count _ => geo.Fits (classTable blocks) count
  | .dealloc _ _ _ => True

theorem inv_init : Inv geo {} fun _ => none where
  held _ _ _ listed := by simp at listed
  sized _ := Nat.zero_le _
  live b c := by simp [Shard.holds]
  used _ _ holds := by simp [Shard.holds] at holds
  idle _ _ := rfl
  frees _ _ pushed := by simp at pushed
  spare _ member := by simp at member
  spareOnce := nodup_nil
  whole := ⟨0, Nat.zero_le _, (zero_mul _).symm⟩
  unused _ _ _ := by simp [Shard.holds]
  tracked g below := by
    have unused : Unused geo {} g := ((unused_iff (zero_mul _).symm).mpr ⟨below, by split_ifs <;> omega⟩)
    exact ⟨iff_of_true rfl unused, .inl unused⟩

theorem settle_one (A : Ledger) (address c c' : ℕ) :
    settle A address c 1 false = settle A address c' 1 false := by
  funext b
  unfold settle
  congr 1
  simp only [eq_iff_iff]
  constructor <;> rintro ⟨i, below, rfl⟩ <;> exact ⟨0, one_pos, by simp [show i = 0 by omega]⟩

variable {books : Books}

/-- Every call keeps the invariant. -/
theorem Inv.step {next : Books} {call : Call} (inv : Inv geo books.shard books.allocated)
    (legal : Legal books call ∧ CallFits geo call) (taken : books.step geo call = some next) :
    Inv geo next.shard next.allocated := by
  cases call with
  | alloc blocks count answers =>
    obtain ⟨⟨_, positive⟩, fits⟩ := legal
    rw [Books.step] at taken
    rcases slabAlloc_sound answers fits positive inv with
      aborted | ⟨⟨_ | ⟨n, blk⟩, s⟩, returned, gives⟩
    · rw [aborted] at taken
      exact absurd taken (some_ne_none next).symm
    · rw [returned, some.injEq] at taken
      subst taken
      exact gives
    · rw [returned, some.injEq] at taken
      subst taken
      exact gives.2
  | dealloc address async updated =>
    obtain ⟨c, inUse⟩ := ne_none_iff_exists'.mp legal.1
    obtain ⟨s, returned, inv'⟩ := inv.dealloc inUse async updated
    rw [Books.step, returned, some.injEq] at taken
    subst taken
    rwa [settle_one _ _ 0 c]

/-- So do all calls together. -/
theorem inv_of_run {calls : List Call} (admitted : Machine.Admitted (Books.step geo)
      (fun books call => Legal books call ∧ CallFits geo call) {} calls)
    (reached : run (Books.step geo) {} calls = some books) :
    Inv geo books.shard books.allocated :=
  @run_induction _ _ _ _ (fun books => Inv geo books.shard books.allocated) _ _ _
    Inv.step inv_init admitted reached

theorem striped_of_not_fits {c : ℕ} (misfit : ¬ geo.Fits c count) :
    slabBlksize c ≤ geo.stripSize / geo.blkSize := by
  simp only [Geometry.Fits, not_or, not_le] at misfit
  have few := misfit.2.2.2
  have width := Nat.mul_le_mul_right (Geometry.slabBlksize c) (le_of_lt few)
  rw [slabsPerSegment, mul_comm geo.numFiles] at width
  rw [stripSize, Nat.div_div_eq_div_mul, mul_comm, ← Nat.div_div_eq_div_mul]
  exact (Nat.le_div_iff_mul_le (numFiles_pos geo)).mpr (width.trans (Nat.div_mul_le_self _ _))

/-- A class with one segment, of which `j` slabs were handed out one by one. -/
structure Dealt (geo : Geometry) (c g j : ℕ) (s : Shard) : Prop where
  numSegments : (s.slabClasses c).numSegments = 1
  listed : (s.slabClasses c).segments 0 = some g
  freeSlabs : (s.slabClasses c).freeSlabs = []
  idx : (s.baseSegments g).idx = 0
  slabClass : (s.baseSegments g).slabClass = c
  blkOffset : (s.baseSegments g).blkOffset = g * geo.segmentBlks
  nextSlab : (s.baseSegments g).nextSlab = j
  bits : ∀ k, (s.baseSegments g).bit k = true ↔ ∃ m < j, k = place geo c m

variable {j : ℕ}

theorem Dealt.getAndLock (dealt : Dealt geo c g j s) : s.getAndLock c 0 = some g := by
  unfold Shard.getAndLock Shard.holds
  simp [dealt.listed, dealt.idx]

theorem Dealt.tryUnfilled_of_low (dealt : Dealt geo c g j s)
    (room : j + count ≤ geo.slabsPerSegment c) :
    (∀ e, slabAllocLow geo s g count = .error e → tryUnfilled geo c count s = .error e) ∧
      ∀ blk s', slabAllocLow geo s g count = .ok (some blk, s') →
        tryUnfilled geo c count s = .ok (.got blk, s') := by
  have first : lastUnfilled geo s c count 1 1 = 0 := by
    rw [lastUnfilled, dealt.getAndLock]
    simp only [dealt.nextSlab, if_neg (not_lt.mpr room)]
    rw [lastUnfilled]
  unfold tryUnfilled
  simp only [dealt.numSegments, first, dealt.getAndLock, dealt.nextSlab,
    if_neg (not_lt.mpr room), Nat.zero_ne_one, if_false]
  exact ⟨fun e fault => by simp [fault], fun blk s' done => by simp [done]⟩

theorem takeSlots_clear (geo : Geometry) {offs : ℕ} (left : ℕ)
    (clear : ∀ k, offs ≤ k → (s.baseSegments g).bit k = false) :
    takeSlots geo g offs left s = .error .bounds ∨
      ∃ s', takeSlots geo g offs left s = .ok (left, s') ∧ Rewritten s s' g offs left true := by
  induction left generalizing offs s with
  | zero =>
    refine .inr ⟨s, by rw [takeSlots], Frame.refl s g, fun _ _ _ => by omega, fun k => ?_, rfl⟩
    rw [if_neg (by omega)]
  | succ left ih =>
    rw [takeSlots]
    by_cases past : geo.bitmapWords (s.baseSegments g).slabClass ≤ offs / 64
    · have fault : slotAlloc geo s g offs = .error .bounds := if_pos past
      exact .inl (by simp [fault])
    · have here := clear offs le_rfl
      have one := rewritten_taken here
      have taken : slotAlloc geo s g offs = .ok (true, s.taken g offs) := by
        unfold slotAlloc
        rw [if_neg past, if_neg]
        intro nonzero
        rw [and_bitmapMask _ (Nat.mod_lt _ (by decide))] at nonzero
        exact Bool.false_ne_true (here.symm.trans nonzero)
      have onward : ∀ k, offs + 1 ≤ k → ((s.taken g offs).baseSegments g).bit k = false :=
        fun k lower => by
          rw [one.bits, if_neg (by omega)]
          exact clear k (by omega)
      simp only [taken]
      rcases ih onward with fault | ⟨s', rest, more⟩
      · exact .inl (by simp [fault])
      · exact .inr ⟨s', by simp [rest], one.cons more⟩

theorem Dealt.advance (dealt : Dealt geo c g j s) (count : ℕ) :
    ((s.advance g count).baseSegments g).slabClass = c ∧
      ((s.advance g count).baseSegments g).nextSlab = j + count ∧
      ((s.advance g count).baseSegments g).blkOffset = g * geo.segmentBlks ∧
      ((s.advance g count).baseSegments g).idx = 0 ∧
      ∀ k, ((s.advance g count).baseSegments g).bit k = (s.baseSegments g).bit k := by
  rw [Shard.advance, setSegment_self]
  exact ⟨dealt.slabClass, by rw [dealt.nextSlab], dealt.blkOffset, dealt.idx, fun _ => rfl⟩

theorem Dealt.slabAllocLow_of_slots (dealt : Dealt geo c g j s)
    (room : j + count ≤ geo.slabsPerSegment c) :
    (∀ e, takeSlots geo g (place geo c j) count (s.advance g count) = .error e →
      slabAllocLow geo s g count = .error e) ∧
    ∀ s', takeSlots geo g (place geo c j) count (s.advance g count) = .ok (count, s') →
      slabAllocLow geo s g count = .ok (some (slotBlk geo c g (place geo c j)), s') := by
  unfold slabAllocLow
  simp only [dealt.slabClass, dealt.nextSlab, dealt.blkOffset, if_neg (not_lt.mpr room),
    slotBlk_place, slotBlk_sub]
  exact ⟨fun e fault => by simp [fault], fun s' taken => by simp [taken]⟩

section

variable (dealt : Dealt geo c g j s)
  (striped : Geometry.slabBlksize c ≤ geo.stripSize / geo.blkSize)
  (room : j + 1 ≤ geo.slabsPerSegment c)

include dealt striped room

/-- One more slab is handed out, at the place that is striped for it. -/
theorem Dealt.one :
    ∃ s', slabAllocLow geo s g 1 = .ok (some (slotBlk geo c g (place geo c j)), s') ∧
      Dealt geo c g (j + 1) s' := by
  obtain ⟨slabs, _, _⟩ := striped_sizes striped
  have placeEq : ∀ m, place geo c m = stripe geo.numFiles (depth geo c) m := fun m => if_pos striped
  have inside : place geo c j < geo.slabsPerSegment c := by
    rw [placeEq, slabs]
    exact stripe_lt (slabs ▸ room)
  obtain ⟨cls, next, blk, idx, bits⟩ := dealt.advance 1
  have clear : ((s.advance g 1).baseSegments g).bit (place geo c j) = false := by
    rw [bits, Bool.eq_false_iff]
    intro set
    obtain ⟨m, before, same⟩ := (dealt.bits _).mp set
    rw [placeEq, placeEq] at same
    have := stripe_injective (slabs ▸ room) (slabs ▸ (by omega : m < geo.slabsPerSegment c)) same
    omega
  have rewritten := rewritten_taken clear
  have taken : slotAlloc geo (s.advance g 1) g (place geo c j) =
      .ok (true, (s.advance g 1).taken g (place geo c j)) := by
    have inside' : place geo c j < geo.slabsPerSegment ((s.advance g 1).baseSegments g).slabClass := by
      rwa [cls]
    rcases slotAlloc_spec inside' with ⟨set, _⟩ | ⟨_, taken⟩
    · exact absurd (clear.symm.trans set) Bool.false_ne_true
    · exact taken
  refine ⟨(s.advance g 1).taken g (place geo c j), ?_, ?_⟩
  · refine (dealt.slabAllocLow_of_slots room).2 _ ?_
    simp [takeSlots, taken]
  · have frame := rewritten.frame
    have classes : ((s.advance g 1).taken g (place geo c j)).slabClasses c = { s.slabClasses c with
          usedSlabs := (((s.advance g 1).taken g (place geo c j)).slabClasses c).usedSlabs } :=
      frame.classes c
    refine ⟨?_, ?_, ?_, frame.idx.trans idx, frame.slabClass.trans cls, frame.blkOffset.trans blk,
      frame.nextSlab.trans next, fun k => ?_⟩
    · rw [classes]
      exact dealt.numSegments
    · rw [classes]
      exact dealt.listed
    · rw [classes]
      exact dealt.freeSlabs
    · rw [rewritten.bits, bits]
      by_cases here : place geo c j ≤ k ∧ k < place geo c j + 1
      · rw [if_pos here]
        exact ⟨fun _ => ⟨j, lt_add_one j, by omega⟩, fun _ => rfl⟩
      · rw [if_neg here, dealt.bits]
        constructor
        · rintro ⟨m, before, place⟩
          exact ⟨m, by omega, place⟩
        · rintro ⟨m, before, rfl⟩
          refine ⟨m, ?_, rfl⟩
          have : m ≠ j := by
            rintro rfl
            exact here ⟨le_rfl, lt_add_one _⟩
          omega

theorem Dealt.loop_one (answers : ℕ → GrowAnswer) (fuel : ℕ) :
    ∃ s', slabAllocLoop geo c 1 answers (fuel + 1) s =
        .ok (some (1, slotBlk geo c g (place geo c j)), s') ∧ Dealt geo c g (j + 1) s' := by
  obtain ⟨s', done, dealt'⟩ := dealt.one striped room
  refine ⟨s', ?_, dealt'⟩
  rw [slabAllocLoop, (dealt.tryUnfilled_of_low room).2 _ _ done]

end

/-- What the environment answers: the class is written, the memory is clear. -/
def granted : ℕ → GrowAnswer := fun _ => ⟨true, fun _ => 0⟩

/-- The first segment a class gets. -/
theorem firstSegment (segments : 0 < geo.totalSegments) (c n : ℕ) :
    ∃ g s, growClass geo c (granted n) {} = .ok (true, s) ∧ Dealt geo c g 0 s := by
  have positive := segmentBlks_pos geo
  have blks : geo.segmentBlks ≤ geo.totalBlks := Nat.le_mul_of_pos_left _ segments
  obtain ⟨g, below, blk⟩ : ∃ g < geo.totalSegments,
      (if geo.mirrored then geo.totalBlks - geo.segmentBlks - 0 else 0) = g * geo.segmentBlks := by
    cases geo.mirrored with
    | true =>
      refine ⟨geo.totalSegments - 1, by omega, ?_⟩
      rw [if_pos rfl, Nat.sub_zero, Nat.sub_mul, one_mul, totalBlks]
    | false => exact ⟨0, segments, by rw [if_neg Bool.false_ne_true, zero_mul]⟩
  have region : g * geo.segmentBlks / geo.segmentBlks = g := Nat.mul_div_cancel _ positive
  unfold growClass
  rw [if_neg (by rw [zero_add]; omega)]
  simp only [blk]
  unfold assignSegment
  simp only [region, segments, decide_true, if_true]
  rw [if_neg (by omega)]
  refine ⟨g, _, rfl, ?_⟩
  constructor
  case bits =>
    intro k
    have clear : newBitmap (geo.slabsPerSegment c) (granted n).memory (k / 64) = 0 := BitVec.zero_and
    simp [Shard.setSegment, Shard.setClass, Segment.bit, clear]
  all_goals simp [Shard.setSegment, Shard.setClass]

/-- The first call of a class grows it, and takes the segment's first slab. -/
theorem firstSlab (segments : 0 < geo.totalSegments)
    (striped : Geometry.slabBlksize c ≤ geo.stripSize / geo.blkSize)
    (room : 1 ≤ geo.slabsPerSegment c) :
    ∃ g blk s, slabAllocLoop geo c 1 granted (rounds geo c {} + 1) {} = .ok (some (1, blk), s) ∧
      Dealt geo c g 1 s := by
  obtain ⟨fuel, enough⟩ : ∃ fuel, rounds geo c {} = fuel + 1 := by
    have : geo.totalBlks ≠ 0 := (mul_pos segments (segmentBlks_pos geo)).ne'
    refine ⟨rounds geo c {} - 1, ?_⟩
    unfold rounds
    dsimp only
    omega
  obtain ⟨g, s, grew, dealt⟩ := firstSegment segments c (fuel + 1)
  obtain ⟨s', done, dealt'⟩ := dealt.loop_one striped room granted fuel
  have noSlab : getSlab geo c {} = .ok (none, {}) := rfl
  have noSegment : tryUnfilled geo c 1 {} = .ok (.none, {}) := rfl
  refine ⟨g, slotBlk geo c g (place geo c 0), s', ?_, dealt'⟩
  rw [enough, slabAllocLoop]
  simp only [noSegment, one_lt_two, if_true, noSlab, grew]
  exact done

/-- A call for one slab of a class whose slabs were handed out one by one. -/
theorem Dealt.step (dealt : Dealt geo (classTable blocks) g j books.shard)
    (striped : Geometry.slabBlksize (classTable blocks) ≤ geo.stripSize / geo.blkSize)
    (room : j + 1 ≤ geo.slabsPerSegment (classTable blocks)) :
    ∃ next, books.step geo (.alloc blocks 1 granted) = some next ∧
      Dealt geo (classTable blocks) g (j + 1) next.shard := by
  obtain ⟨s', done, dealt'⟩ := dealt.loop_one striped room granted
    (rounds geo (classTable blocks) books.shard)
  have call : slabAlloc geo blocks 1 granted books.shard =
      .ok (some (1, slotBlk geo (classTable blocks) g (place geo (classTable blocks) j)), s') := by
    unfold slabAlloc
    simp [dealt.freeSlabs, getFreeSlab, done]
  exact ⟨_, by rw [Books.step, call], dealt'⟩

/-- Slabs are handed out one by one, up to any number that a segment has. -/
theorem exists_dealt {n : ℕ} (segments : 0 < geo.totalSegments) (small : blocks ≤ 4095)
    (striped : Geometry.slabBlksize (classTable blocks) ≤ geo.stripSize / geo.blkSize)
    (positive : 0 < n) (room : n ≤ geo.slabsPerSegment (classTable blocks)) :
    ∃ calls books g, Machine.Admitted (Books.step geo)
        (fun books call => Legal books call ∧ CallFits geo call) {} calls ∧
      run (Books.step geo) {} calls = some books ∧
      Dealt geo (classTable blocks) g n books.shard := by
  have ok : ∀ books, Legal books (.alloc blocks 1 granted) ∧
      CallFits geo (.alloc blocks 1 granted) := fun _ => ⟨⟨small, le_rfl⟩, .inl (by decide)⟩
  induction n with
  | zero => omega
  | succ n ih =>
    rcases Nat.eq_zero_or_pos n with rfl | more
    · obtain ⟨g, blk, s, done, dealt⟩ := firstSlab segments striped room
      have call : slabAlloc geo blocks 1 granted {} = .ok (some (1, blk), s) := done
      refine ⟨[.alloc blocks 1 granted], ⟨s, settle (fun _ => none) blk (classTable blocks) 1 true⟩,
        g, ⟨ok _, fun _ _ => trivial⟩, ?_, dealt⟩
      rw [run_cons, Books.step, call]
      rfl
    · obtain ⟨calls, books, g, admitted, reached, dealt⟩ := ih more (by omega)
      obtain ⟨next, taken, dealt'⟩ := dealt.step striped room
      refine ⟨calls ++ [.alloc blocks 1 granted], next, g, ?_, ?_, dealt'⟩
      · exact admitted.extend fun middle _ => ⟨ok middle, fun _ _ => trivial⟩
      · rw [run_append, reached, bind_some, run_cons, taken]
        rfl

theorem not_placed {k : ℕ} (positive : 0 < count) (inside : k < geo.slabsPerSegment c)
    (past : geo.slabsPerSegment c < k + count) : ¬ Placed geo s A c (slotBlk geo c g k) count := by
  rintro ⟨⟨g', k', _, inside', same⟩, _⟩
  obtain rfl : g = g' := by
    have region : slotBlk geo c g k / geo.segmentBlks = g := slotBlk_div inside
    rw [same, slotBlk_div (by omega)] at region
    exact region.symm
  obtain rfl := slotBlk_injective same
  omega

/-- From a striped start, slabs are taken past the end of the segment. -/
theorem Dealt.leaves_segment (dealt : Dealt geo (classTable blocks) g j s)
    (several : 2 ≤ count) (room : j + count ≤ geo.slabsPerSegment (classTable blocks))
    (free : ∀ m < j, place geo (classTable blocks) m < place geo (classTable blocks) j)
    (answers : ℕ → GrowAnswer) : slabAlloc geo blocks count answers s = .error .bounds ∨
      ∃ s', slabAlloc geo blocks count answers s = .ok (some (count,
        slotBlk geo (classTable blocks) g (place geo (classTable blocks) j)), s') := by
  obtain ⟨_, _, _, _, bits⟩ := dealt.advance count
  have clear : ∀ k, place geo (classTable blocks) j ≤ k →
      ((s.advance g count).baseSegments g).bit k = false := fun k lower => by
    rw [bits, Bool.eq_false_iff]
    intro set
    obtain ⟨m, before, rfl⟩ := (dealt.bits k).mp set
    exact absurd (free m before) (not_lt.mpr lower)
  unfold slabAlloc
  simp only [if_neg (not_lt.mpr several)]
  rw [slabAllocLoop]
  rcases takeSlots_clear geo count clear with fault | ⟨s', taken, _⟩
  · have low := (dealt.slabAllocLow_of_slots room).1 _ fault
    exact .inl (by simp [(dealt.tryUnfilled_of_low room).1 _ low])
  · have low := (dealt.slabAllocLow_of_slots room).2 _ taken
    exact .inr ⟨s', by simp [(dealt.tryUnfilled_of_low room).2 _ _ low]⟩

/-- An allocation that is aborted by an assertion, or returns slabs that are placed well. -/
def WellPlaced (geo : Geometry) (books : Books) (blocks : ℕ) :
    Except Fault (Option (ℕ × ℕ) × Shard) → Prop
  | .error fault => fault = .abort
  | .ok (none, _) => True
  | .ok (some (n, blk), s) => Placed geo s books.allocated (classTable blocks) blk n

/-- After every run of calls that fit, the slabs of one more call are inside a segment of their
class, at slab boundaries and clear of all slabs in use, exactly if that call fits, too. -/
theorem slab_allocations_disjoint (geo : Geometry) (segments : 0 < geo.totalSegments)
    {blocks count : ℕ} (small : blocks ≤ 4095) (positive : 1 ≤ count) :
    (∀ calls books answers, Machine.Admitted (Books.step geo)
        (fun books call => Legal books call ∧ CallFits geo call) {} calls →
      run (Books.step geo) {} calls = some books →
      WellPlaced geo books blocks (slabAlloc geo blocks count answers books.shard)) ↔
    geo.Fits (classTable blocks) count := by
  constructor
  · intro safe
    by_contra misfit
    have striped := striped_of_not_fits misfit
    obtain ⟨slabs, _, _⟩ := striped_sizes striped
    have placeEq : ∀ m, place geo (classTable blocks) m =
        stripe geo.numFiles (depth geo (classTable blocks)) m := fun m => if_pos striped
    obtain ⟨n, room, past, free⟩ := exists_stripe_past fun fits => misfit ((fits_iff striped).mpr fits)
    rw [← slabs, ← placeEq] at past
    rw [← slabs] at room
    have several : 2 ≤ count := by
      simp only [Geometry.Fits, not_or] at misfit
      omega
    have inside : place geo (classTable blocks) n < geo.slabsPerSegment (classTable blocks) := by
      rw [placeEq, slabs]
      exact stripe_lt (by omega)
    have handed : 0 < n := by
      rcases Nat.eq_zero_or_pos n with rfl | handed
      · rw [placeEq, stripe, Nat.zero_mod, Nat.zero_div, zero_mul] at past
        omega
      · exact handed
    obtain ⟨calls, books, g, admitted, reached, dealt⟩ :=
      exists_dealt segments small striped handed (by omega)
    have outcome := safe calls books granted admitted reached
    rcases dealt.leaves_segment several room (fun m before => by
      rw [placeEq, placeEq]
      exact free m before) granted with fault | ⟨s', returned⟩
    · rw [fault] at outcome
      exact Fault.noConfusion outcome
    · rw [returned] at outcome
      exact not_placed (by omega) inside past outcome
  · intro fits calls books answers admitted reached
    rcases slabAlloc_sound answers fits positive (inv_of_run admitted reached) with
      aborted | ⟨⟨_ | ⟨n, blk⟩, s⟩, returned, gives⟩
    · rw [aborted]
      rfl
    · rw [returned]
      trivial
    · rw [returned]
      exact gives.1

/-- Two flash files, two segments of 2048 blocks; a class of 512 blocks has four slabs in each. -/
def twoFiles : Geometry where
  blkSize := 16384
  numFiles := 2
  totalSegments := 2
  pthreads := 1
  evictToFree := false
  gc := false
  mirrored := false
  blkSize_pow := ⟨14, by decide, by decide, by decide⟩
  numFiles_pow := ⟨1, by decide⟩
  pthreads_pos := Nat.one_pos

theorem slab_allocations_disjoint_pair : (0 < twoFiles.totalSegments ∧ 512 ≤ 4095 ∧ 1 ≤ 2) ∧
    ∀ calls books answers, Machine.Admitted (Books.step twoFiles)
        (fun books call => Legal books call ∧ CallFits twoFiles call) {} calls →
      run (Books.step twoFiles) {} calls = some books →
      WellPlaced twoFiles books 512 (slabAlloc twoFiles 512 2 answers books.shard) :=
  ⟨by decide, (slab_allocations_disjoint twoFiles (by decide) (by decide) (by decide)).mpr (by decide)⟩

/-- After one slab, three slabs are taken from the second stripe on. The third one starts the other
segment, and the first slab of another class is put there as well. -/
theorem three_slabs_leave_segment :
    ∃ books s, Machine.Admitted (Books.step twoFiles) Legal {}
        [.alloc 512 1 granted, .alloc 512 3 granted] ∧
      run (Books.step twoFiles) {} [.alloc 512 1 granted, .alloc 512 3 granted] = some books ∧
      twoFiles.segmentBlks = 2048 ∧ books.allocated 1024 = some 9 ∧ books.allocated 2048 = some 9 ∧
      slabAlloc twoFiles 1 1 granted books.shard = .ok (some (1, 2048), s) := by
  have legal : Machine.Admitted (Books.step twoFiles) Legal {}
      [.alloc 512 1 granted, .alloc 512 3 granted] :=
    ⟨⟨by decide, by decide⟩, fun _ _ => ⟨⟨by decide, by decide⟩, fun _ _ => trivial⟩⟩
  exact ⟨_, _, legal, rfl, by decide, by decide, by decide, rfl⟩

/-- A segment was never assigned, is a free segment, or is at its place in the list of one class. -/
def OnePlace (geo : Geometry) (s : Shard) (g : ℕ) : Prop :=
  let spare := g * geo.segmentBlks ∈ s.freeSegments
  let listed (c i : ℕ) := (s.slabClasses c).segments i = some g
  (Unused geo s g ∧ ¬ spare ∧ ∀ c i, ¬ listed c i) ∨ (¬ Unused geo s g ∧ spare ∧ ∀ c i, ¬ listed c i) ∨
    ¬ Unused geo s g ∧ ¬ spare ∧ ∃ c, ∀ c' i, listed c' i ↔ c' = c ∧ i = (s.baseSegments g).idx

/-- `segment->mos_bitmap == NULL`. It gets its bitmap when `segment_table` gets the segment, and
keeps it from then on. -/
def Shard.noBitmap (s : Shard) (g : ℕ) : Bool := !s.segmentTable g

theorem Inv.not_listed (inv : Inv geo s A)
    (noClass : ∀ c, s.holds c g = false) (c i : ℕ) : ¬ (s.slabClasses c).segments i = some g :=
  fun listed => by cases (inv.holds_of_listed listed).symm.trans (noClass c)

theorem Inv.not_spare (inv : Inv geo s A) (elsewhere : Unused geo s g ∨ ∃ c, s.holds c g = true) :
    g * geo.segmentBlks ∉ s.freeSegments := fun spare => by
  obtain ⟨g', _, same, noClass, used⟩ := inv.spare _ spare
  obtain rfl : g = g' := Nat.eq_of_mul_eq_mul_right (segmentBlks_pos geo) same
  rcases elsewhere with unused | ⟨c, holds⟩
  · exact used unused
  · cases holds.symm.trans (noClass c)

/-- A segment is in one place. -/
theorem Inv.onePlace (inv : Inv geo s A) (below : g < geo.totalSegments) : OnePlace geo s g := by
  rcases (inv.tracked g below).2 with unused | spare | ⟨c, holds⟩
  · exact .inl ⟨unused, inv.not_spare (.inl unused), inv.not_listed (inv.unused g unused)⟩
  · have noClass : ∀ c, s.holds c g = false := fun c => by
      by_contra holds
      exact inv.not_spare (.inr ⟨c, Bool.not_eq_false _ ▸ holds⟩) spare
    exact .inr (.inl ⟨fun unused => inv.not_spare (.inl unused) spare, spare, inv.not_listed noClass⟩)
  · refine .inr (.inr ⟨fun unused => ?_, inv.not_spare (.inr ⟨c, holds⟩), c, fun c' i =>
      ⟨fun listed => ⟨?_, (inv.held c' i g listed).2.2.1.symm⟩, ?_⟩⟩)
    · cases holds.symm.trans (inv.unused g unused c)
    · exact inv.class_unique (inv.holds_of_listed listed) holds
    · rintro ⟨rfl, rfl⟩
      exact holds_iff.mp holds

/-- In every run each segment is in one place. The next segment that a class grows by gets a clear
bitmap, and it has none before, as is asserted, exactly if it is not taken from the free list. -/
theorem segments_recycled (geo : Geometry) {calls : List Call} {books : Books}
    (admitted : Machine.Admitted (Books.step geo)
      (fun books call => Legal books call ∧ CallFits geo call) {} calls)
    (reached : run (Books.step geo) {} calls = some books) :
    (books.shard.freeSegments.Nodup ∧ ∀ g < geo.totalSegments, OnePlace geo books.shard g) ∧
      ∀ c answer g, nextSegment geo books.shard = some g →
        (∃ s, growClass geo c answer books.shard = .ok (answer.updated, s) ∧ Granted geo c g s) ∧
        (books.shard.noBitmap g = true ↔ g * geo.segmentBlks ∉ books.shard.freeSegments) := by
  have inv := inv_of_run admitted reached
  refine ⟨⟨inv.spareOnce, fun g below => inv.onePlace below⟩, fun c answer g next => ?_⟩
  obtain ⟨_, s, grew, _, _, grows⟩ := inv.grow (c := c) answer
  obtain ⟨below, noClass, rfl, granted⟩ := grows g next
  refine ⟨⟨s, grew, granted⟩, ?_⟩
  obtain ⟨entered, place⟩ := inv.tracked g below
  rw [Shard.noBitmap, Bool.not_eq_true', entered]
  refine ⟨fun unused => inv.not_spare (.inl unused), fun notSpare => ?_⟩
  rcases place with unused | spare | ⟨c', holds⟩
  · exact unused
  · exact absurd spare notSpare
  · cases holds.symm.trans (noClass c')

/-- One flash file, as start-up demands, and one segment, which a class gives back as soon as it is
empty. -/
def oneSegment : Geometry :=
  { twoFiles with numFiles := 1, totalSegments := 1, gc := true, numFiles_pow := ⟨0, rfl⟩ }

/-- A slab as large as the segment, and back. -/
def emptied : List Call := [.alloc 2048 1 granted, .dealloc 0 false true]

theorem emptied_admitted : Machine.Admitted (Books.step oneSegment)
    (fun books call => Legal books call ∧ CallFits oneSegment call) {} emptied := by
  refine ⟨⟨⟨by decide, le_rfl⟩, .inl (by decide)⟩, fun next taken => ⟨⟨?_, trivial⟩, fun _ _ => trivial⟩⟩
  obtain rfl := some.inj taken
  change _ ≠ none
  decide

theorem segments_recycled_emptied : ∃ books s,
    run (Books.step oneSegment) {} emptied = some books ∧ OnePlace oneSegment books.shard 0 ∧
      growClass oneSegment 0 (granted 0) books.shard = .ok (true, s) ∧ Granted oneSegment 0 0 s := by
  have recycled := segments_recycled oneSegment emptied_admitted rfl
  obtain ⟨s, grew, granted⟩ := (recycled.2 0 (granted 0) 0 rfl).1
  exact ⟨_, s, rfl, recycled.1.2 0 (by decide), grew, granted⟩

/-- The segment that is given back keeps its bitmap, and the next class grows by it. -/
theorem released_segment_has_bitmap : ∃ books,
    Machine.Admitted (Books.step oneSegment)
      (fun books call => Legal books call ∧ CallFits oneSegment call) {} emptied ∧
    run (Books.step oneSegment) {} emptied = some books ∧
    books.shard.freeSegments = [0] ∧ nextSegment oneSegment books.shard = some 0 ∧
    books.shard.noBitmap 0 = false :=
  ⟨_, emptied_admitted, rfl, rfl, rfl, rfl⟩

/-- In every run, a segment counts the slabs of it that were given out and not taken back. -/
theorem slabs_accounted {calls : List Call} (admitted : Admitted (Books.step geo)
      (fun books call => Legal books call ∧ CallFits geo call) {} calls)
    (reached : run (Books.step geo) {} calls = some books) (holds : books.shard.holds c g = true) :
    (books.shard.baseSegments g).usedSlabs = ((Finset.range (geo.slabsPerSegment c)).filter
      fun k => books.allocated (slotBlk geo c g k) = some c).card := by
  have inv := inv_of_run admitted reached
  rw [inv.used c g holds]
  refine congrArg Finset.card (Finset.filter_congr fun k below => ?_)
  have inside := Finset.mem_range.mp below
  rw [inv.live]
  refine ⟨fun bit => ⟨g, k, holds, inside, rfl, bit⟩, ?_⟩
  rintro ⟨g', k', _, inside', same, bit⟩
  obtain rfl : g = g' := by rw [← slotBlk_div (g := g) inside, same, slotBlk_div inside']
  rwa [slotBlk_injective same]

/-- Three slabs in two calls, and the second of them back. -/
def threeSlabs : List Call :=
  [.alloc 512 1 granted, .alloc 512 2 granted, .dealloc 512 false true]

theorem slabs_accounted_threeSlabs : ∃ books, run (Books.step oneSegment) {} threeSlabs =
    some books ∧ (books.shard.baseSegments 0).usedSlabs = 2 := by
  have admitted : Machine.Admitted (Books.step oneSegment)
      (fun books call => Legal books call ∧ CallFits oneSegment call) {} threeSlabs := by
    refine ⟨⟨⟨by decide, le_rfl⟩, .inl (by decide)⟩, fun second taken =>
      ⟨⟨⟨by decide, by decide⟩, .inl (by decide)⟩, fun third taken' =>
        ⟨⟨?_, trivial⟩, fun _ _ => trivial⟩⟩⟩
    obtain rfl := some.inj taken
    obtain rfl := some.inj taken'
    change _ ≠ none
    decide
  exact ⟨_, rfl, (@slabs_accounted oneSegment 9 0 _ threeSlabs admitted rfl (by decide)).trans
    (by decide)⟩

end Zetascale.Flash.Slabs
