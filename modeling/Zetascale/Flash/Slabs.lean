import Zetascale.Lib.Machine
import Zetascale.Lib.Stripes

/-!
# Slab allocation

`mcd_fth_osd_slab_alloc` and `mcd_fth_osd_slab_dealloc` of `mcd_osd.c`. A shard's segments of 32 MiB
are assigned to slab classes; a class cuts its segments into slabs of a power of two of blocks. A
slab is taken from the class's list of freed slabs, from the unused end of a segment, striped over
the flash files, or by a scan of the bitmaps; the bitmap's test-and-set decides each time.

`mcd_osd_assign_pthread_id` is never called, so `Mcd_pthread_id` is 0 in every thread and each class
has one free list and one scan hand in use.
-/

namespace Zetascale.Flash.Slabs

open Function

/-- How a call stops without returning: an access past an array, an assertion that is always
compiled in, or a loop that does not end. -/
inductive Fault where
  | bounds
  | abort
  | diverged

/-- `MCD_OSD_SEGMENT_SIZE` -/
def segmentSize : ℕ := 32 * 1024 * 1024

/-- What `mcd_osd_slab_init` and `mcd_osd_slab_shard_init` set once. -/
structure Geometry where
  blkSize : ℕ
  numFiles : ℕ
  totalSegments : ℕ
  /-- `num_sdf_threads * num_cores` -/
  pthreads : ℕ
  evictToFree : Bool
  gc : Bool
  /-- `storm_test & 0x0004` on the data shard: segments are handed out from the end. -/
  mirrored : Bool
  blkSize_pow : ∃ k, 9 ≤ k ∧ k ≤ 14 ∧ blkSize = 2 ^ k
  numFiles_pow : ∃ k, numFiles = 2 ^ k
  pthreads_pos : 0 < pthreads

namespace Geometry

variable (geo : Geometry)

def segmentBlks : ℕ := segmentSize / geo.blkSize

/-- `Mcd_aio_strip_size` -/
def stripSize : ℕ := segmentSize / geo.numFiles

def totalBlks : ℕ := geo.totalSegments * geo.segmentBlks

/-- `slab_blksize` -/
def slabBlksize (c : ℕ) : ℕ := 2 ^ c

def slabsPerSegment (c : ℕ) : ℕ := geo.segmentBlks / slabBlksize c

/-- Slabs are proportional to the shard and the class, between 64 and 32768. -/
def freelistLen (c : ℕ) : ℕ := max 64 (min 32768 (geo.totalBlks / 32768 / slabBlksize c))

def slabsPerPth (c : ℕ) : ℕ := geo.slabsPerSegment c / geo.pthreads

/-- The words of a bitmap, whose bytes are `(slabs_per_segment + 7) / 8`. -/
def bitmapWords (c : ℕ) : ℕ := ((geo.slabsPerSegment c + 7) / 8 + 7) / 8

end Geometry

/-- The class of the objects of so many blocks: `class_table`. -/
def classTable (blocks : ℕ) : ℕ :=
  ((List.range 16).find? fun j => decide (blocks ≤ 2 ^ j)).getD 16

/-- `mcd_osd_segment_t` -/
structure Segment where
  usedSlabs : ℕ := 0
  idx : ℕ := 0
  nextSlab : ℕ := 0
  blkOffset : ℕ := 0
  mosBitmap : ℕ → BitVec 64 := fun _ => 0
  slabClass : ℕ := 0

/-- `mcd_osd_slab_class_t`. The segments are named by their index in `base_segments`. -/
structure SlabClass where
  usedSlabs : ℕ := 0
  totalSlabs : ℕ := 0
  numSegments : ℕ := 0
  segments : ℕ → Option ℕ := fun _ => none
  /-- `free_slabs[0]`, the last one pushed first -/
  freeSlabs : List ℕ := []
  scanHand : ℕ := 0

structure Shard where
  blkAllocated : ℕ := 0
  /-- `free_segments`, the last one pushed first -/
  freeSegments : List ℕ := []
  baseSegments : ℕ → Segment := fun _ => {}
  /-- Whether `segment_table` has the segment. -/
  segmentTable : ℕ → Bool := fun _ => false
  slabClasses : ℕ → SlabClass := fun _ => {}

variable (geo : Geometry)

namespace Shard

def setSegment (s : Shard) (g : ℕ) (segment : Segment) : Shard :=
  { s with baseSegments := update s.baseSegments g segment }

def setClass (s : Shard) (c : ℕ) (cls : SlabClass) : Shard :=
  { s with slabClasses := update s.slabClasses c cls }

end Shard

/-- `Mcd_osd_bitmap_masks` -/
def bitmapMask (i : ℕ) : BitVec 64 := BitVec.twoPow 64 i

def Segment.bit (segment : Segment) (offs : ℕ) : Bool :=
  (segment.mosBitmap (offs / 64)).getLsbD (offs % 64)

def Segment.setWord (segment : Segment) (w : ℕ) (word : BitVec 64) : Segment :=
  { segment with mosBitmap := update segment.mosBitmap w word }

/-- A slot that was clear is counted. -/
def Shard.taken (s : Shard) (g offs : ℕ) : Shard :=
  let segment := s.baseSegments g
  let cls := s.slabClasses segment.slabClass
  let word := segment.mosBitmap (offs / 64) ||| bitmapMask (offs % 64)
  (s.setSegment g { segment.setWord (offs / 64) word with usedSlabs := segment.usedSlabs + 1 }).setClass
    segment.slabClass { cls with usedSlabs := cls.usedSlabs + 1 }

/-- `mcd_osd_slab_slot_alloc` -/
def slotAlloc (s : Shard) (g offs : ℕ) : Except Fault (Bool × Shard) :=
  let segment := s.baseSegments g
  if geo.bitmapWords segment.slabClass ≤ offs / 64 then .error .bounds
  else if segment.mosBitmap (offs / 64) &&& bitmapMask (offs % 64) ≠ 0 then .ok (false, s)
  else .ok (true, s.taken g offs)

/-- The loop of `mcd_fth_osd_slab_dealloc_low`. -/
def clearSlots (segment : Segment) (offs : ℕ) : ℕ → Except Fault Segment
  | 0 => .ok segment
  | i + 1 =>
    match clearSlots segment offs i with
    | .error e => .error e
    | .ok cleared =>
      let slot := offs + i
      if geo.bitmapWords segment.slabClass ≤ slot / 64 then .error .bounds
      else .ok (cleared.setWord (slot / 64)
        (cleared.mosBitmap (slot / 64) &&& ~~~ bitmapMask (slot % 64)))

/-- `mcd_fth_osd_slab_dealloc_low` -/
def deallocLow (s : Shard) (g blkOffset count : ℕ) : Except Fault Shard :=
  let segment := s.baseSegments g
  let cls := s.slabClasses segment.slabClass
  let offs := (blkOffset - segment.blkOffset) / Geometry.slabBlksize segment.slabClass
  match clearSlots geo segment offs count with
  | .error e => .error e
  | .ok cleared =>
    .ok ((s.setSegment g { cleared with usedSlabs := segment.usedSlabs - count }).setClass
      segment.slabClass { cls with usedSlabs := cls.usedSlabs - count })

/-- `mcd_osd_segment_lock`: whether the segment is one of the class. -/
def Shard.holds (s : Shard) (c g : ℕ) : Bool :=
  (s.slabClasses c).segments (s.baseSegments g).idx = some g

/-- `mcd_osd_segment_get_and_lock` -/
def Shard.getAndLock (s : Shard) (c i : ℕ) : Option ℕ :=
  match (s.slabClasses c).segments i with
  | none => none
  | some g => if s.holds c g then some g else none

/-- The loop of `mcd_fth_osd_slab_alloc_low`: the number of slots it took. -/
def takeSlots (g : ℕ) : ℕ → ℕ → Shard → Except Fault (ℕ × Shard)
  | _, 0, s => .ok (0, s)
  | offs, left + 1, s =>
    match slotAlloc geo s g offs with
    | .error e => .error e
    | .ok (false, s') => .ok (0, s')
    | .ok (true, s') =>
      match takeSlots g (offs + 1) left s' with
      | .error e => .error e
      | .ok (i, s'') => .ok (i + 1, s'')

/-- The first block of the next slab of a segment of the class, from the segment's start. -/
def nextOffset (c nextSlab : ℕ) : ℕ :=
  if Geometry.slabBlksize c ≤ geo.stripSize / geo.blkSize then
    nextSlab % geo.numFiles * geo.stripSize / geo.blkSize +
      nextSlab / geo.numFiles * Geometry.slabBlksize c
  else nextSlab * Geometry.slabBlksize c

/-- `__sync_fetch_and_add( &segment->next_slab, count )` -/
def Shard.advance (s : Shard) (g count : ℕ) : Shard :=
  s.setSegment g { s.baseSegments g with nextSlab := (s.baseSegments g).nextSlab + count }

/-- `mcd_fth_osd_slab_alloc_low` -/
def slabAllocLow (s : Shard) (g count : ℕ) : Except Fault (Option ℕ × Shard) :=
  let segment := s.baseSegments g
  let c := segment.slabClass
  if geo.slabsPerSegment c < segment.nextSlab + count then .ok (none, s)
  else
    let blkOffset := segment.blkOffset + nextOffset geo c segment.nextSlab
    let offs := (blkOffset - segment.blkOffset) / Geometry.slabBlksize c
    match takeSlots geo g offs count (s.advance g count) with
    | .error e => .error e
    | .ok (i, s') =>
      if i < count then
        -- `next_slab` stays where it is
        match deallocLow geo s' g blkOffset i with
        | .error e => .error e
        | .ok s'' => .ok (none, s'')
      else .ok (some blkOffset, s')

/-- `mcd_fth_osd_get_free_slab` -/
def getFreeSlab (c : ℕ) : List ℕ → Shard → Except Fault (Option ℕ × Shard)
  | [], s => .ok (none, s)
  | blkOffset :: rest, s =>
    let popped := s.setClass c { s.slabClasses c with freeSlabs := rest }
    let g := blkOffset / geo.segmentBlks
    if s.segmentTable g = false then .error .bounds
    else if s.holds c g = false then getFreeSlab c rest popped
    else
      match slotAlloc geo popped g
          ((blkOffset - (s.baseSegments g).blkOffset) / Geometry.slabBlksize c) with
      | .error e => .error e
      | .ok (true, s') => .ok (some blkOffset, s')
      | .ok (false, s') => getFreeSlab c rest s'

/-- `Mcd_osd_scan_table`, of `MCD_OSD_SCAN_TBSIZE` entries -/
def scanTable (x : ℕ) : ℕ :=
  ((List.range 64).find? fun i => decide (2 ^ i % 4093 = x)).getD 0xff

/-- The place of the lowest clear bit. -/
def lowestClear (mapValue : BitVec 64) : ℕ :=
  scanTable (((mapValue + 1) &&& ~~~ mapValue).toNat % 4093)

def Shard.setHand (s : Shard) (c hand : ℕ) : Shard :=
  s.setClass c { s.slabClasses c with scanHand := hand }

/-- The scan for classes of few slabs: the first word of each segment. -/
def scanFirstWords (c : ℕ) : ℕ → Shard → Except Fault (Option ℕ × Shard)
  | 0, s => .ok (none, s)
  | left + 1, s =>
    let hand := (s.slabClasses c).scanHand
    let moved (s : Shard) := s.setHand c ((hand + 1) % 2 ^ 32)
    match s.getAndLock c (hand % (s.slabClasses c).numSegments) with
    | none => scanFirstWords c left (moved s)
    | some g =>
      let segment := s.baseSegments g
      let mapValue := segment.mosBitmap 0
      if ~~~ mapValue ≠ 0 ∧ lowestClear mapValue < geo.slabsPerSegment c then
        match slotAlloc geo s g (lowestClear mapValue) with
        | .error e => .error e
        | .ok (true, s') =>
          .ok (some (segment.blkOffset + lowestClear mapValue * Geometry.slabBlksize c), s')
        | .ok (false, s') => scanFirstWords c left (moved s')
      else scanFirstWords c left (moved s)

/-- The scan of the words of one segment, from `map_offset` on. -/
def scanWords (c g mapOffset : ℕ) (s : Shard) : Except Fault (Option ℕ × Shard) :=
  if mapOffset < geo.slabsPerPth c then
    let word := (s.baseSegments g).mosBitmap (mapOffset / 64)
    let mapValue :=
      if mapOffset % 64 = 0 then word else word ||| BitVec.ofNat 64 (2 ^ (mapOffset % 64) - 1)
    let offs := mapOffset / 64 * 64 + lowestClear mapValue
    if ~~~ mapValue ≠ 0 ∧ offs < geo.slabsPerPth c then
      match slotAlloc geo s g offs with
      | .error e => .error e
      | .ok (true, s') => .ok (some offs, s')
      | .ok (false, s') => scanWords c g (mapOffset + (64 - mapOffset % 64)) s'
    else scanWords c g (mapOffset + (64 - mapOffset % 64)) s
  else .ok (none, s)
termination_by geo.slabsPerPth c - mapOffset

/-- The scan of the segments of a class, one after the other from the hand on. -/
def scanSegments (c : ℕ) : ℕ → ℕ → Shard → Except Fault (Option ℕ × Shard)
  | 0, hand, s => .ok (none, s.setHand c hand)
  | left + 1, hand, s =>
    let slabs := geo.slabsPerPth c
    let onward := (hand + (slabs - hand % slabs)) % 2 ^ 32
    match s.getAndLock c (hand / slabs % (s.slabClasses c).numSegments) with
    | none => scanSegments c left onward s
    | some g =>
      let segment := s.baseSegments g
      if geo.slabsPerSegment c ≤ segment.usedSlabs then scanSegments c left onward s
      else
        match scanWords geo c g (hand % slabs) s with
        | .error e => .error e
        | .ok (some offs, s') =>
          .ok (some (segment.blkOffset + offs * Geometry.slabBlksize c),
            s'.setHand c ((offs + hand - hand % slabs) % 2 ^ 32))
        | .ok (none, s') => scanSegments c left onward s'

/-- `mcd_fth_osd_get_slab` -/
def getSlab (c : ℕ) (s : Shard) : Except Fault (Option ℕ × Shard) :=
  match getFreeSlab geo c (s.slabClasses c).freeSlabs s with
  | .error e => .error e
  | .ok (some blkOffset, s) => .ok (some blkOffset, s)
  | .ok (none, s) =>
    let cls := s.slabClasses c
    if cls.numSegments = 0 then .ok (none, s)
    else
      let scanned :=
        if geo.slabsPerPth c ≤ 1 then
          if 64 < geo.slabsPerSegment c then .error .abort
          else scanFirstWords geo c cls.numSegments s
        else if cls.usedSlabs < cls.totalSlabs then
          scanSegments geo c cls.numSegments cls.scanHand s
        else .ok (none, s)
      match scanned with
      | .error e => .error e
      | .ok (some blkOffset, s) => .ok (some blkOffset, s)
      | .ok (none, s) => if geo.evictToFree then .error .abort else .ok (none, s)

/-- What the environment answers when a class grows: whether `update_class` wrote the class's
segment list, and the memory that the bitmap is allocated in. -/
structure GrowAnswer where
  updated : Bool
  memory : ℕ → BitVec 64

/-- A new bitmap: its bytes are cleared, what lies behind them in the last word is not. -/
def newBitmap (slabs : ℕ) (memory : ℕ → BitVec 64) (w : ℕ) : BitVec 64 :=
  memory w &&& (BitVec.allOnes 64 <<< ((slabs + 7) / 8 * 8 - w * 64))

/-- `mcd_osd_slab_segments_get_free_slot` -/
def SlabClass.freeSlot (cls : SlabClass) : ℕ :=
  ((List.range cls.numSegments).find? fun i => (cls.segments i).isNone).getD cls.numSegments

/-- `mcd_osd_assign_segment` -/
def assignSegment (c blkOffset : ℕ) (answer : GrowAnswer) (s : Shard) :
    Except Fault (Bool × Shard) :=
  let cls := s.slabClasses c
  let more := decide (cls.numSegments < geo.totalSegments)
  let segIdx := if more then cls.numSegments else cls.freeSlot
  let g := blkOffset / geo.segmentBlks
  if geo.totalSegments ≤ segIdx ∨ geo.totalSegments ≤ g then .error .bounds
  else
    let s' := s.setSegment g { s.baseSegments g with
      blkOffset := blkOffset
      slabClass := c
      idx := segIdx
      mosBitmap := newBitmap (geo.slabsPerSegment c) answer.memory }
    let s'' := s'.setClass c { cls with
      numSegments := if more then cls.numSegments + 1 else cls.numSegments
      totalSlabs := cls.totalSlabs + geo.slabsPerSegment c
      segments := update cls.segments segIdx (some g) }
    .ok (answer.updated, { s'' with segmentTable := update s''.segmentTable g true })

/-- `mcd_fth_osd_grow_class`: whether the class got a segment. -/
def growClass (c : ℕ) (answer : GrowAnswer) (s : Shard) : Except Fault (Bool × Shard) :=
  if geo.totalBlks < s.blkAllocated + geo.segmentBlks then
    match s.freeSegments with
    | [] => .ok (false, s)
    | blkOffset :: rest =>
      if geo.totalBlks < blkOffset + geo.segmentBlks then
        .ok (false, { s with freeSegments := rest })
      else assignSegment geo c blkOffset answer { s with freeSegments := rest }
  else
    let blkOffset :=
      if geo.mirrored then geo.totalBlks - geo.segmentBlks - s.blkAllocated else s.blkAllocated
    assignSegment geo c blkOffset answer
      { s with blkAllocated := s.blkAllocated + geo.segmentBlks }

/-- The first of the segments that have room, up to the last one of the class. -/
def lastUnfilled (s : Shard) (c count : ℕ) : ℕ → ℕ → ℕ
  | 0, idx => idx
  | i + 1, idx =>
    match s.getAndLock c i with
    | none => lastUnfilled s c count i idx
    | some g =>
      if geo.slabsPerSegment c < (s.baseSegments g).nextSlab + count then idx
      else lastUnfilled s c count i i

/-- How the look for unused slabs ends. -/
inductive Tried where
  | got (blkOffset : ℕ)
  | again
  | none

/-- The first part of the loop of `mcd_fth_osd_slab_alloc`. -/
def tryUnfilled (c count : ℕ) (s : Shard) : Except Fault (Tried × Shard) :=
  let segCount := (s.slabClasses c).numSegments
  let idx := lastUnfilled geo s c count segCount segCount
  if idx = segCount then .ok (.none, s)
  else
    match s.getAndLock c idx with
    | Option.none => .ok (.again, s)
    | some g =>
      let failed (s : Shard) : Tried × Shard :=
        let cls := s.slabClasses c
        (if cls.segments (cls.numSegments - 1) = some g then .none else .again, s)
      if geo.slabsPerSegment c < (s.baseSegments g).nextSlab + count then .ok (failed s)
      else
        match slabAllocLow geo s g count with
        | .error e => .error e
        | .ok (some blkOffset, s') => .ok (.got blkOffset, s')
        | .ok (Option.none, s') => .ok (failed s')

/-- The loop of `mcd_fth_osd_slab_alloc`. It returns the number of slabs and their first block. -/
def slabAllocLoop (c count : ℕ) (answers : ℕ → GrowAnswer) :
    ℕ → Shard → Except Fault (Option (ℕ × ℕ) × Shard)
  | 0, _ => .error .diverged
  | fuel + 1, s =>
    match tryUnfilled geo c count s with
    | .error e => .error e
    | .ok (.got blkOffset, s) => .ok (some (count, blkOffset), s)
    | .ok (.again, s) => slabAllocLoop c count answers fuel s
    | .ok (.none, s) =>
      match if count < 2 then getSlab geo c s else .ok (none, s) with
      | .error e => .error e
      | .ok (some blkOffset, s) => .ok (some (1, blkOffset), s)
      | .ok (none, s) =>
        match growClass geo c (answers fuel) s with
        | .error e => .error e
        | .ok (true, s) => slabAllocLoop c count answers fuel s
        | .ok (false, s) =>
          match getSlab geo c s with
          | .error e => .error e
          | .ok (some blkOffset, s) => .ok (some (1, blkOffset), s)
          | .ok (none, s) => .ok (none, s)

/-- What the loop uses up: the slabs past `next_slab` of all segments, and the segments that are
left to assign. -/
def rounds (c : ℕ) (s : Shard) : ℕ :=
  ((List.range geo.totalSegments).map fun g =>
    geo.slabsPerSegment c - (s.baseSegments g).nextSlab).sum +
  (s.freeSegments.length + (geo.totalBlks - s.blkAllocated))

/-- `mcd_fth_osd_slab_alloc` -/
def slabAlloc (blocks count : ℕ) (answers : ℕ → GrowAnswer) (s : Shard) :
    Except Fault (Option (ℕ × ℕ) × Shard) :=
  let c := classTable blocks
  match if count < 2 then getFreeSlab geo c (s.slabClasses c).freeSlabs s else .ok (none, s) with
  | .error e => .error e
  | .ok (some blkOffset, s) => .ok (some (1, blkOffset), s)
  | .ok (none, s) => slabAllocLoop geo c count answers (rounds geo c s + 1) s

/-- `while (num_segments && !segments[num_segments - 1]) num_segments--` -/
def trimSegments (segments : ℕ → Option ℕ) : ℕ → ℕ
  | 0 => 0
  | n + 1 => if (segments n).isNone then trimSegments segments n else n + 1

/-- `mcd_fth_osd_free_segment`, after the segment left its class's list -/
def freeSegment (s : Shard) (g : ℕ) (updated : Bool) : Shard :=
  let segment := s.baseSegments g
  let cls := s.slabClasses segment.slabClass
  if updated then
    let s' := s.setSegment g { segment with nextSlab := 0 }
    let s'' := s'.setClass segment.slabClass { cls with
      totalSlabs := cls.totalSlabs - geo.slabsPerSegment segment.slabClass
      numSegments := trimSegments cls.segments cls.numSegments }
    { s'' with freeSegments := segment.blkOffset :: s''.freeSegments }
  else
    s.setClass segment.slabClass { cls with segments := update cls.segments segment.idx (some g) }

/-- `mcd_fth_osd_shrink_class`, not from the garbage collector -/
def shrinkClass (s : Shard) (g : ℕ) (updated : Bool) : Shard :=
  let segment := s.baseSegments g
  let cls := s.slabClasses segment.slabClass
  if s.holds segment.slabClass g = false then s
  else if segment.usedSlabs = 0 then
    freeSegment geo (s.setClass segment.slabClass
      { cls with segments := update cls.segments segment.idx none }) g updated
  else s

/-- The freed slab goes on the class's list, where it has room. -/
def Shard.pushFree (s : Shard) (c address : ℕ) : Shard :=
  let cls := s.slabClasses c
  if cls.freeSlabs.length < geo.freelistLen c then
    s.setClass c { cls with freeSlabs := address :: cls.freeSlabs }
  else s

/-- `mcd_fth_osd_slab_dealloc` -/
def slabDealloc (address : ℕ) (async updated : Bool) (s : Shard) : Except Fault Shard :=
  let g := address / geo.segmentBlks
  if s.segmentTable g = false then .ok s
  else
    match deallocLow geo s g address 1 with
    | .error e => .error e
    | .ok s' =>
      let c := (s'.baseSegments g).slabClass
      let s'' := if async then s' else s'.pushFree geo c address
      if (s''.baseSegments g).usedSlabs = 0 ∧ geo.gc = true then .ok (shrinkClass geo s'' g updated)
      else .ok s''

end Zetascale.Flash.Slabs
