import Zetascale.Btree.Node

/-!
# The footprint of one object in a leaf

How much of a leaf one object takes, and the unsigned subtractions by which its
data is divided between the leaf and the overflow nodes. `btree_raw_init`
accepts keys longer than `big_object_size`; for those the room that
`btree_get_bigobj_inleaf` computes wraps.
-/

namespace Zetascale.Btree

open List

/-- `BTREE_DEFAULT_NODE_SIZE`. -/
def BTREE_DEFAULT_NODE_SIZE : ℕ := 8100

/-- `BTREE_MAX_DATA_SIZE_SUPPORTED`. -/
def BTREE_MAX_DATA_SIZE_SUPPORTED : ℕ := 25 * 1024 * 1024

/-- The `max_key_size` of a container that does not set one. -/
def defaultMaxKeySize (nodesize : ℕ) : ℕ := (nodesize - sizeofRawNode) / 4 - sizeofVlkey

/-- An unsigned subtraction of the source, before it is carried out. -/
structure Subtraction where
  minuend : ℕ
  subtrahend : ℕ

/-- The difference is negative. -/
def Subtraction.Wraps (s : Subtraction) : Prop := s.minuend < s.subtrahend

instance (s : Subtraction) : Decidable s.Wraps := inferInstanceAs (Decidable (_ < _))

/-- The subtractions of the loop of `allocate_overflow_data`, which takes the
bytes of one overflow node from those that are left. The number of turns is at
most the number of bytes. -/
def allocateSubtractions (ovdatasize : ℕ) : ℕ → ℕ → List Subtraction
  | 0, _ => []
  | turns + 1, nbytes =>
    if nbytes = 0 then []
    else
      let b := if nbytes < ovdatasize then nbytes else ovdatasize
      ⟨nbytes, b⟩ :: allocateSubtractions ovdatasize turns (nbytes - b)

theorem allocateSubtractions_not_wraps (ovdatasize turns nbytes : ℕ) :
    ∀ s ∈ allocateSubtractions ovdatasize turns nbytes, ¬ s.Wraps := by
  induction turns generalizing nbytes with
  | zero => simp [allocateSubtractions]
  | succ turns ih =>
    intro s mem
    unfold allocateSubtractions at mem
    split at mem
    · simp at mem
    · rcases mem_cons.mp mem with rfl | later
      · simp only [Subtraction.Wraps]
        split <;> omega
      · exact ih _ s later

section

variable {κ : Type} (cfg : Config κ)

/-- The subtractions on the way of an object into its leaf: the room its key
leaves for data, the length of the part that overflows, and those that allocate
the overflow nodes. -/
def storeSubtractions (keylen datalen : ℕ) : List Subtraction :=
  if cfg.bigObjectKd keylen datalen then
    let rem := cfg.btreeGetBigobjInleaf keylen datalen
    ⟨cfg.bigObjectSize, keylen⟩ :: ⟨datalen, rem⟩ ::
      allocateSubtractions cfg.ovdatasize (datalen - rem) (datalen - rem)
  else []

/-- Only the room left by the key can wrap, and it does when the key is longer
than `big_object_size`. -/
theorem storeSubtractions_wrap_iff (keylen datalen : ℕ) :
    (∃ s ∈ storeSubtractions cfg keylen datalen, s.Wraps) ↔ cfg.bigObjectSize < keylen := by
  have rest := cfg.btreeGetBigobjInleaf_le keylen datalen
  constructor
  · rintro ⟨s, mem, wraps⟩
    unfold storeSubtractions at mem
    split at mem
    · rcases mem_cons.mp mem with rfl | mem
      · exact wraps
      · rcases mem_cons.mp mem with rfl | mem
        · exact absurd wraps (not_lt.mpr rest)
        · exact absurd wraps (allocateSubtractions_not_wraps _ _ _ s mem)
    · simp at mem
  · intro long
    have big : cfg.bigObjectKd keylen datalen = true := by
      rw [Config.bigObjectKd, decide_eq_true_eq]
      omega
    refine ⟨⟨cfg.bigObjectSize, keylen⟩, ?_, long⟩
    rw [storeSubtractions, if_pos big]
    exact mem_cons_self

/-- An object keeps to a quarter of its leaf, and no subtraction on its way
there wraps, when its key leaves room in that quarter for the header and the
largest metadata, and for no longer key. -/
theorem footprint_quarter_iff (keylen datalen : ℕ) :
    (entrySize cfg keylen datalen ≤ cfg.nodesizeLessHdr / 4 ∧
        ∀ s ∈ storeSubtractions cfg keylen datalen, ¬ s.Wraps) ↔
      sizeofEntryHeader + btreeLeafGetMaxMeta + keylen ≤ cfg.nodesizeLessHdr / 4 := by
  have quarter := cfg.bigObjectSize_add
  have short : sizeofEntryHeader + btreeLeafGetMaxMeta + keylen ≤ cfg.nodesizeLessHdr / 4 ↔
      keylen ≤ cfg.bigObjectSize := by
    simp only [sizeofEntryHeader, btreeLeafGetMaxMeta]
    omega
  have wrap := storeSubtractions_wrap_iff cfg keylen datalen
  rw [short]
  constructor
  · rintro ⟨-, noWrap⟩
    by_contra long
    obtain ⟨s, mem, wraps⟩ := wrap.mpr (not_le.mp long)
    exact noWrap s mem wraps
  · intro fits
    refine ⟨entrySize_le cfg fits datalen, fun s mem wraps => ?_⟩
    exact not_lt.mpr fits (wrap.mp ⟨s, mem, wraps⟩)

/-- By default the eight longest keys a container accepts are too long for their
quarter, whatever its node size. -/
theorem quarter_iff_default {nodesize : ℕ} (large : BTREE_DEFAULT_NODE_SIZE ≤ nodesize)
    (keylen : ℕ) :
    sizeofEntryHeader + btreeLeafGetMaxMeta + keylen ≤ (nodesize - sizeofRawNode) / 4 ↔
      keylen + 8 < defaultMaxKeySize nodesize := by
  simp only [BTREE_DEFAULT_NODE_SIZE, sizeofEntryHeader, btreeLeafGetMaxMeta, defaultMaxKeySize,
    sizeofRawNode, sizeofVlkey] at *
  omega

end

/-- A container of keys that are known by their length, with the default node
size and the default maximal key. -/
def defaultSizes : Config ℕ where
  keylen := id
  nodesizeLessHdr := BTREE_DEFAULT_NODE_SIZE - sizeofRawNode
  maxKeySize := defaultMaxKeySize BTREE_DEFAULT_NODE_SIZE
  ovdatasize := BTREE_DEFAULT_NODE_SIZE - sizeofRawNode
  maxSnapshots := 0
  fourKeys := by decide
  largeObjects := by decide
  ovdatasize_pos := by decide

/-- By default, a key of 1962 bytes is accepted. With data one byte short of two
overflow nodes it takes more than a whole leaf, after the room for data in the
leaf wrapped. -/
theorem longest_key_exceeds_leaf :
    1962 < defaultSizes.maxKeySize ∧ 15927 ≤ BTREE_MAX_DATA_SIZE_SUPPORTED ∧
      defaultSizes.nodesizeLessHdr < entrySize defaultSizes 1962 15927 ∧
      ∃ s ∈ storeSubtractions defaultSizes 1962 15927, s.Wraps := by
  refine ⟨by decide, by decide, by decide, ?_⟩
  decide

end Zetascale.Btree
