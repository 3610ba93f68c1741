import Zetascale.Recovery.Log

/-!
# Loading the hash table in storm mode

The loop at the end of `recover` in `mcd_rec2.c`. It goes through the persistent object table segment
by segment, and past each object by a width that is counted from the object's blocks.
-/

namespace Zetascale.Recovery

open List

/-- What the compiler makes of `__builtin_clzl`: the number of zeros before the highest bit of a
number of 64 bits, and an undefined one for 0. -/
structure Builtin where
  clzl : ℕ → ℕ
  clzl_of_pos : ∀ l, 0 < l → l < 2 ^ 64 → clzl l = 63 - Nat.log2 l
  clzl_le : ∀ l, clzl l ≤ 64

/-- `log2i`: the place of the highest bit, as a `uint`. -/
def log2i (builtin : Builtin) (l : ℕ) : ℕ := (2 ^ 32 + 64 - builtin.clzl l - 1) % 2 ^ 32

/-- `power_of_two_roundup` -/
def powerOfTwoRoundup (builtin : Builtin) (l : ℕ) : ℕ := (log2i builtin (l - 1) + 1) % 2 ^ 32

/-- The persistent object table, once the logs are merged. -/
structure ObjectTable where
  /-- `mcd_rec2_potcache_access` -/
  object : ℕ → FlashObject
  /-- `blocks` is a field of 12 bits. -/
  blocks_lt : ∀ blk, (object blk).blocks < 2 ^ 12
  /-- `mcd_rec2_potbitmap_query`: the segments that have objects -/
  marked : ℕ → Bool
  nbit : ℕ
  segmentBlks : ℕ
  totalBlks : ℕ

namespace ObjectTable

variable (pot : ObjectTable)

/-- An object starts at the block. -/
def live (blk : ℕ) : Bool := (pot.object blk).blocks ≠ 0 ∧ blk < pot.totalBlks

section

-- what `update_hash_entry` does to the shard; the loop reads nothing of it
variable (builtin : Builtin) {σ : Type} (updateHashEntry : σ → ℕ → FlashObject → Option σ)

/-- The blocks of a segment from `bno` on. `none`: an insertion aborts, or the loop does not end. -/
def loadSegment (i : ℕ) : ℕ → ℕ → σ → Option σ
  | 0, _, _ => none
  | fuel + 1, bno, s =>
    if bno < pot.segmentBlks then
      let blk := i * pot.segmentBlks + bno
      if pot.live blk then
        (updateHashEntry s blk (pot.object blk)).bind
          (loadSegment i fuel (bno + powerOfTwoRoundup builtin (pot.object blk).blocks))
      else loadSegment i fuel (bno + 1) s
    else some s

def load (s : σ) : Option σ :=
  (range pot.nbit).foldlM (fun s i =>
    if pot.marked i then pot.loadSegment builtin updateHashEntry i (pot.segmentBlks + 1) 0 s else some s) s

/-- The objects at some blocks are inserted. -/
def insertAll (s : σ) (blks : List ℕ) : Option σ :=
  blks.foldlM (fun s blk => updateHashEntry s blk (pot.object blk)) s

end

/-- The live objects of a segment, by their first block. -/
def liveIn (i : ℕ) : List ℕ :=
  if pot.marked i then (range' (i * pot.segmentBlks) pot.segmentBlks).filter pot.live else []

/-- The live objects. -/
def liveBlks : List ℕ := (range pot.nbit).flatMap pot.liveIn

/-- Every live object is inserted once, and the loop goes on behind it, but not behind another. -/
structure LoadedOnce (builtin : Builtin) : Prop where
  inserted : ∀ {σ : Type} (updateHashEntry : σ → ℕ → FlashObject → Option σ) (s : σ),
    pot.load builtin updateHashEntry s = pot.insertAll updateHashEntry s pot.liveBlks
  advances : ∀ blk ∈ pot.liveBlks, 1 ≤ powerOfTwoRoundup builtin (pot.object blk).blocks ∧
    ∀ other ∈ pot.liveBlks, blk < other →
      blk + powerOfTwoRoundup builtin (pot.object blk).blocks ≤ other

/-- The objects of a table do not overlap. -/
def Apart : Prop :=
  ∀ blk other, pot.live blk → pot.live other → blk < other → blk + (pot.object blk).blocks ≤ other

end ObjectTable

/-- The width of an object of one block. -/
theorem powerOfTwoRoundup_one (builtin : Builtin) :
    powerOfTwoRoundup builtin 1 = 64 - builtin.clzl 0 := by
  have le := builtin.clzl_le 0
  rw [powerOfTwoRoundup, log2i, Nat.sub_self]
  omega

/-- The width is at least one block and within the object, if that is so for one block. -/
theorem powerOfTwoRoundup_within {builtin : Builtin} (zero : builtin.clzl 0 = 63) {l : ℕ}
    (positive : l ≠ 0) (small : l < 2 ^ 12) :
    1 ≤ powerOfTwoRoundup builtin l ∧ powerOfTwoRoundup builtin l ≤ l := by
  rcases Nat.eq_or_lt_of_le (Nat.one_le_iff_ne_zero.mpr positive) with rfl | several
  · rw [powerOfTwoRoundup_one, zero]
    omega
  · have rest : l - 1 ≠ 0 := by omega
    have high : Nat.log2 (l - 1) < l - 1 := (Nat.log2_lt rest).mpr Nat.lt_two_pow_self
    have low : Nat.log2 (l - 1) < 12 := (Nat.log2_lt rest).mpr (by omega)
    rw [powerOfTwoRoundup, log2i, builtin.clzl_of_pos (l - 1) (by omega) (by omega)]
    omega

theorem filter_range'_skip {p : ℕ → Bool} {a n k : ℕ}
    (skipped : ∀ x, a ≤ x → x < a + k → p x = false) :
    (range' a n).filter p = (range' (a + k) (n - k)).filter p := by
  induction k generalizing a n with
  | zero => rfl
  | succ k ih =>
    cases n with
    | zero => rw [Nat.zero_sub]; rfl
    | succ n =>
      rw [range'_succ, filter_cons_of_neg (by simp [skipped a le_rfl (by omega)]),
        ih fun x lower below => skipped x (by omega) (by omega), Nat.add_sub_add_right]
      congr 2
      omega

namespace ObjectTable

variable {pot : ObjectTable} {builtin : Builtin} {σ : Type}
  {updateHashEntry : σ → ℕ → FlashObject → Option σ}

/-- One segment, from any block on: what is live there is inserted. -/
theorem loadSegment_eq (zero : builtin.clzl 0 = 63) (apart : pot.Apart) {i : ℕ} {blks : List ℕ}
    {fuel bno : ℕ} {s : σ} (enough : pot.segmentBlks - bno < fuel)
    (left : blks = (range' (i * pot.segmentBlks + bno) (pot.segmentBlks - bno)).filter pot.live) :
    pot.loadSegment builtin updateHashEntry i fuel bno s = pot.insertAll updateHashEntry s blks := by
  induction fuel generalizing bno s blks with
  | zero => omega
  | succ fuel ih =>
    rw [loadSegment]
    by_cases inside : bno < pot.segmentBlks
    · obtain ⟨n, more⟩ : ∃ n, pot.segmentBlks - bno = n + 1 := ⟨pot.segmentBlks - bno - 1, by omega⟩
      rw [more, range'_succ] at left
      rw [if_pos inside]
      by_cases live : pot.live (i * pot.segmentBlks + bno) = true
      · rw [filter_cons_of_pos live] at left
        subst left
        obtain ⟨positive, within⟩ := powerOfTwoRoundup_within zero
          (of_decide_eq_true live).1 (pot.blocks_lt _)
        simp only [if_pos live]
        refine Option.bind_congr fun s _ => ih (by omega) ?_
        -- the blocks of the object behind its first one are not live
        rw [filter_range'_skip (k := powerOfTwoRoundup builtin
          (pot.object (i * pot.segmentBlks + bno)).blocks - 1) fun x behind below => ?_]
        · congr 2 <;> omega
        · by_contra there
          have := apart _ x live (by simpa using there) behind
          omega
      · rw [filter_cons_of_neg live] at left
        rw [if_neg live]
        refine ih (by omega) (left.trans ?_)
        congr 2
        omega
    · rw [Nat.sub_eq_zero_of_le (not_lt.mp inside)] at left
      rw [if_neg inside, left]
      rfl

theorem live_of_mem_liveBlks {blk : ℕ} (member : blk ∈ pot.liveBlks) : pot.live blk = true := by
  obtain ⟨i, -, inside⟩ := mem_flatMap.mp member
  unfold liveIn at inside
  split_ifs at inside
  · exact (mem_filter.mp inside).2
  · cases inside

/-- All segments, one after the other. -/
theorem load_eq (zero : builtin.clzl 0 = 63) (apart : pot.Apart) (s : σ) :
    pot.load builtin updateHashEntry s = pot.insertAll updateHashEntry s pot.liveBlks := by
  unfold load liveBlks
  generalize range pot.nbit = segments
  induction segments generalizing s with
  | nil => rfl
  | cons i rest ih =>
    rw [flatMap_cons, insertAll, foldlM_append, foldlM_cons]
    congr 1
    · unfold liveIn
      split_ifs with marked
      · exact loadSegment_eq zero apart (Nat.lt_succ_self _) rfl
      · rfl
    · funext s
      exact ih s

/-- Where `__builtin_clzl( 0)` is 63, as `bsr` leaves it, every table is loaded as it should be. -/
theorem table_loadedOnce (builtin : Builtin) (zero : builtin.clzl 0 = 63) (pot : ObjectTable)
    (apart : pot.Apart) : pot.LoadedOnce builtin := by
  refine ⟨fun updateHashEntry s => load_eq zero apart s, fun blk member => ?_⟩
  have live := live_of_mem_liveBlks member
  obtain ⟨positive, within⟩ := powerOfTwoRoundup_within zero (of_decide_eq_true live).1
    (pot.blocks_lt blk)
  refine ⟨positive, fun other member' later => ?_⟩
  have := apart blk other live (live_of_mem_liveBlks member') later
  omega

/-- `bsr` and the inversion of its six bits; `bsr` leaves a register that is 0 as it is. -/
def bsr : Builtin where
  clzl l := 63 - Nat.log2 l
  clzl_of_pos _ _ _ := rfl
  clzl_le _ := (Nat.sub_le _ _).trans (Nat.le_succ 63)

/-- Objects of one block at 0 and 3, and one of two blocks at 4. -/
def sideBySide (blk : ℕ) : FlashObject :=
  if blk = 0 ∨ blk = 3 then { blocks := 1 } else if blk = 4 then { blocks := 2 } else {}

theorem sideBySide_blocks_lt (blk : ℕ) : (sideBySide blk).blocks < 2 ^ 12 := by
  unfold sideBySide
  split_ifs <;> decide

/-- These objects in two segments of four blocks. -/
def threeObjects : ObjectTable where
  object := sideBySide
  blocks_lt := sideBySide_blocks_lt
  marked _ := true
  nbit := 2
  segmentBlks := 4
  totalBlks := 8

theorem threeObjects_live {blk : ℕ} (live : threeObjects.live blk = true) :
    blk = 0 ∨ blk = 3 ∨ blk = 4 := by
  by_contra none
  simp only [not_or] at none
  simp [ObjectTable.live, threeObjects, sideBySide, none.1, none.2.1, none.2.2] at live

theorem table_loadedOnce_threeObjects : threeObjects.liveBlks = [0, 3, 4] ∧
    threeObjects.LoadedOnce bsr := by
  refine ⟨by decide, table_loadedOnce bsr rfl threeObjects fun blk other live live' later => ?_⟩
  rcases threeObjects_live live with rfl | rfl | rfl <;>
    rcases threeObjects_live live' with rfl | rfl | rfl <;> first | omega | decide

/-- Where it is another number, an object of one block is not passed, or one behind it may be. -/
theorem clzl_zero_of_loadedOnce (builtin : Builtin)
    (loaded : threeObjects.LoadedOnce builtin) : builtin.clzl 0 = 63 := by
  obtain ⟨positive, next⟩ := loaded.advances 3 (by decide)
  have behind := next 4 (by decide) (by decide)
  have single : (threeObjects.object 3).blocks = 1 := rfl
  rw [single, powerOfTwoRoundup_one] at positive behind
  omega

end ObjectTable

end Zetascale.Recovery
