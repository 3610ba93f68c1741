import Zetascale.VarLeaf.Code

/-!
# What a leaf holds

A leaf holds a list of entries, each with the front it takes from another entry
and with its metadata written out or left to the entry before. `render` writes
such a list down as headers and data area, and what `btree_var_leaf.c` reads
from the result are the entries of the list.
-/

namespace Zetascale.VarLeaf

open Btree FrontCoding List Option

/-- An entry of a tree, as far as the leaf code depends on it: its part in the
leaf has the length that is computed for it, its key has been accepted, and it
points to overflow nodes if it has data there. -/
structure Sound (cfg : LeafConfig) (e : Entry Data) : Prop where
  inleaf : e.inleaf.length = cfg.datalenInLeaf e.key.length e.datalen
  accepted : e.key.length < cfg.maxKeySize
  ptr_eq_zero_iff : e.ptr = 0 ↔
    ¬ (cfg.bigObjectKd e.key.length e.datalen = true ∧ e.datalen ≠ 0)

/-- An entry and how it is written: the front it takes from the entry
`prefixIdx`, and whether its metadata is left to the entry before. -/
@[ext]
structure Placed where
  entry : Entry Data
  prefixLen : ℕ
  prefixIdx : ℕ
  compact : Bool

open Placed

/-- What the code passes around for an entry. -/
def infoOf (e : Entry Data) : KeyInfo :=
  { key := e.key, datalen := e.datalen, ptr := e.ptr, seqno := e.seqno, tombstone := e.tombstone }

@[simp] theorem infoOf_key (e : Entry Data) : (infoOf e).key = e.key := rfl

namespace Placed

def keyMeta (p : Placed) : KeyMeta :=
  { keylen := p.entry.key.length, datalen := p.entry.datalen, prefixIdx := p.prefixIdx,
    prefixLen := p.prefixLen, ptr := p.entry.ptr, seqno := p.entry.seqno, compactMeta := p.compact }

def cell (p : Placed) : Cell :=
  ⟨keyMetaToKeyMetax p.keyMeta, p.entry.key.drop p.prefixLen, p.entry.inleaf⟩

def header (p : Placed) (offset : ℕ) : EntryHeader :=
  ⟨p.keyMeta.type, p.entry.tombstone, offset⟩

end Placed

/-- The data area of the entries. -/
def areaOf (ps : List Placed) : List Cell := ps.map Placed.cell

/-- The bytes of the data area of the entries. -/
def bytesOf (ps : List Placed) : ℕ := Extents.total Cell.size (areaOf ps)

/-- The headers of the entries, the first of which is at an offset. -/
def headersFrom : ℕ → List Placed → List EntryHeader
  | _, [] => []
  | offset, p :: ps => p.header offset :: headersFrom (offset + p.cell.size) ps

/-- The entries, written down. -/
def render (ps : List Placed) : LeafNode := ⟨headersFrom 0 ps, areaOf ps⟩

/-! ## Sizes -/

theorem KeyMetaType.size_type1 : KeyMetaType.type1.size = 8 := rfl

theorem KeyMetaType.size_pos (t : KeyMetaType) : 0 < t.size := by
  cases t with
  | type1 => decide
  | full t => cases t <;> decide

/-- Every cell takes room, so an offset belongs to one cell. -/
theorem Cell.size_pos (c : Cell) : 0 < c.size :=
  lt_of_lt_of_le c.metax.type.size_pos (by unfold Cell.size; omega)

/-- Metadata is written under its own type. -/
@[simp] theorem keyMetaToKeyMetax_type (m : KeyMeta) : (keyMetaToKeyMetax m).type = m.type := by
  unfold keyMetaToKeyMetax
  split
  · next same => rw [same]; rfl
  · next same => rw [same]; rfl

@[simp] theorem bytesOf_nil : bytesOf [] = 0 := rfl

@[simp] theorem bytesOf_cons (p : Placed) (ps : List Placed) :
    bytesOf (p :: ps) = p.cell.size + bytesOf ps := by
  simp [bytesOf, areaOf]

@[simp] theorem bytesOf_append (ps qs : List Placed) :
    bytesOf (ps ++ qs) = bytesOf ps + bytesOf qs := by
  simp [bytesOf, areaOf]

@[simp] theorem areaOf_append (ps qs : List Placed) : areaOf (ps ++ qs) = areaOf ps ++ areaOf qs := by
  simp [areaOf]

@[simp] theorem areaOf_cons (p : Placed) (ps : List Placed) :
    areaOf (p :: ps) = p.cell :: areaOf ps := rfl

/-- Further entries lie behind the bytes of the first ones. -/
theorem headersFrom_append (offset : ℕ) (ps qs : List Placed) :
    headersFrom offset (ps ++ qs) = headersFrom offset ps ++ headersFrom (offset + bytesOf ps) qs := by
  induction ps generalizing offset with
  | nil => simp [headersFrom]
  | cons p ps ih =>
    simp [headersFrom, ih, bytesOf_cons, add_assoc]

@[simp] theorem headersFrom_length (offset : ℕ) (ps : List Placed) :
    (headersFrom offset ps).length = ps.length := by
  induction ps generalizing offset with
  | nil => rfl
  | cons p ps ih => simp [headersFrom, ih]

@[simp] theorem render_nkeys (ps : List Placed) : (render ps).nkeys = ps.length :=
  headersFrom_length 0 ps

/-- The space the entries take in a leaf. -/
def spaceOf (ps : List Placed) : ℕ := ps.length * sizeofEntryHeader + bytesOf ps

/-- The code counts the same space. -/
@[simp] theorem render_usedSpace (ps : List Placed) : (render ps).usedSpace = spaceOf ps := by
  rw [LeafNode.usedSpace, render_nkeys]
  rfl

@[simp] theorem spaceOf_append (ps qs : List Placed) :
    spaceOf (ps ++ qs) = spaceOf ps + spaceOf qs := by
  simp only [spaceOf, length_append, bytesOf_append, Nat.add_mul]
  omega

@[simp] theorem spaceOf_cons (p : Placed) (ps : List Placed) :
    spaceOf (p :: ps) = sizeofEntryHeader + p.cell.size + spaceOf ps := by
  simp only [spaceOf, length_cons, bytesOf_cons, Nat.add_mul]
  omega

@[simp] theorem spaceOf_nil : spaceOf [] = 0 := rfl

variable {cfg : LeafConfig} {p : Placed}

/-- An entry takes the room that the code computes for it. -/
theorem Placed.cell_size (sound : Sound cfg p.entry) :
    p.cell.size = getKeyMetaSpaceUsed cfg p.keyMeta.type p.keyMeta := by
  simp [Cell.size, cell, keyMetaToKeyMetax_type, sound.inleaf, getKeyMetaSpaceUsed, keyMeta]

/-! ## Entries that rest on others -/

namespace Placed

/-- The entry before has all of the metadata an entry leaves to it. -/
structure Lends (p q : Placed) : Prop where
  keylen : q.entry.key.length = p.entry.key.length
  datalen : q.entry.datalen = p.entry.datalen
  prefixLen : q.prefixLen = p.prefixLen
  prefixIdx : q.prefixIdx = p.prefixIdx
  ptr : q.entry.ptr = p.entry.ptr
  shared : 0 < p.prefixLen

/-- The entry takes a front of its key from the base its predecessor has or is. -/
structure Shares (p q : Placed) (index : ℕ) : Prop where
  positive : 0 < q.prefixLen
  le_common : q.prefixLen ≤ common p.entry.key q.entry.key
  base : p.prefixLen = 0 ∧ q.prefixIdx + 1 = index ∨
    0 < p.prefixLen ∧ q.prefixIdx = p.prefixIdx ∧ q.prefixLen ≤ p.prefixLen

/-- The entry has no prefix. -/
def Bare (q : Placed) : Prop := q.prefixLen = 0 ∧ q.prefixIdx = 0

/-- How entry `index` may be written after its predecessor. -/
def Follows (index : ℕ) : Option Placed → Placed → Prop
  | none, q => q.Bare ∧ q.compact = false
  | some p, q => (q.Bare ∨ p.Shares q index) ∧ (q.compact = true → p.Lends q)

end Placed

/-- Each entry, the first of which has the given index, may be written as it is. -/
def Linked : ℕ → Option Placed → List Placed → Prop
  | _, _, [] => True
  | index, prev, p :: ps => p.Follows index prev ∧ Linked (index + 1) (some p) ps

/-- The last entry of a list, or the one before an empty list. -/
def lastOr (prev : Option Placed) : List Placed → Option Placed
  | [] => prev
  | p :: ps => lastOr (some p) ps

variable {prev : Option Placed} {qs ps done rest : List Placed}

/-- Links can be checked part by part. -/
theorem linked_append {index : ℕ} : Linked index prev (ps ++ qs) ↔
      Linked index prev ps ∧ Linked (index + ps.length) (lastOr prev ps) qs := by
  induction ps generalizing index prev with
  | nil => simp [Linked, lastOr]
  | cons p ps ih =>
    simp [Linked, ih, lastOr, and_assoc, add_assoc, add_comm 1]

theorem lastOr_append (prev : Option Placed) (ps qs : List Placed) :
    lastOr prev (ps ++ qs) = lastOr (lastOr prev ps) qs := by
  induction ps generalizing prev with
  | nil => rfl
  | cons p ps ih => exact ih (some p)

theorem lastOr_concat (prev : Option Placed) (ps : List Placed) (p : Placed) :
    lastOr prev (ps ++ [p]) = some p := by
  rw [lastOr_append]
  rfl

/-- Every entry that leaves its metadata to the entry before finds it there. -/
def Chained : Option Placed → List Placed → Prop
  | _, [] => True
  | prev, q :: qs => (q.compact = true → ∃ p, prev = some p ∧ p.Lends q) ∧ Chained (some q) qs

/-- Linked entries find their metadata. -/
theorem Linked.chained {index : ℕ} (linked : Linked index prev ps) : Chained prev ps := by
  induction ps generalizing index prev with
  | nil => trivial
  | cons q qs ih =>
    refine ⟨fun compact => ?_, ih linked.2⟩
    cases prev with
    | none => exact absurd compact (by rw [linked.1.2]; decide)
    | some p => exact ⟨p, rfl, linked.1.2 compact⟩

theorem chained_append :
    Chained prev (ps ++ qs) ↔ Chained prev ps ∧ Chained (lastOr prev ps) qs := by
  induction ps generalizing prev with
  | nil => simp [Chained, lastOr]
  | cons p ps ih => simp [Chained, ih, lastOr, and_assoc]

/-- A prefix is taken from an earlier entry, which has all of its own key. -/
theorem Linked.base (linked : Linked 0 none ps)
    {q : Placed} (split : ps = done ++ q :: rest) (shares : 0 < q.prefixLen) :
    ∃ b, ps[q.prefixIdx]? = some b ∧ q.prefixIdx < done.length ∧ b.prefixLen = 0 ∧
      q.prefixLen ≤ common b.entry.key q.entry.key := by
  subst split
  induction done using reverseRecOn generalizing q rest with
  | nil => exact absurd shares (by rw [linked.1.1.1]; decide)
  | append_singleton done p ih =>
    rw [append_assoc] at linked ⊢
    have here := (linked_append.mp linked).2
    obtain ⟨-, follows, -⟩ := here
    rcases follows.1 with bare | share
    · exact absurd shares (by rw [bare.1]; decide)
    · rcases share.base with ⟨bare, index⟩ | ⟨shares, index, less⟩
      · have place : q.prefixIdx = done.length := by omega
        refine ⟨p, ?_, ?_, bare, share.le_common⟩
        · rw [place, getElem?_append_right le_rfl]
          simp
        · simp [place]
      · obtain ⟨b, there, before, bare, front⟩ := ih shares linked
        refine ⟨b, ?_, ?_, bare, le_common_trans (less.trans front) share.le_common⟩
        · rw [index]
          exact there
        · rw [index, length_append]
          exact Nat.lt_add_right _ before

/-! ## Reading -/

/-- A leaf whose data area holds entries, and whose headers are right for those
that are `known`. -/
structure Reads (n : LeafNode) (known rest : List Placed) : Prop where
  headers : ∃ tail, n.headers = headersFrom 0 known ++ tail
  area : n.area = areaOf (known ++ rest)

/-- All entries of a written leaf are known. -/
theorem reads_render (ps : List Placed) : Reads (render ps) ps [] :=
  ⟨⟨[], (append_nil _).symm⟩, by rw [append_nil]; rfl⟩

section

variable {n : LeafNode} {more : List Placed}

section

variable (reads : Reads n (done ++ p :: more) rest)

include reads

/-- The header of a known entry. -/
theorem Reads.header : n.headers[done.length]? = some (p.header (bytesOf done)) := by
  obtain ⟨tail, headers⟩ := reads.headers
  rw [headers, headersFrom_append, append_assoc, getElem?_append_right (by simp)]
  simp [headersFrom]

/-- Its offset leads to its cell. -/
theorem Reads.itemAt : Extents.itemAt Cell.size n.area (bytesOf done) = some p.cell := by
  rw [reads.area, append_assoc, cons_append, areaOf_append, areaOf_cons]
  exact Extents.itemAt_total Cell.size_pos _ _ _

/-- Header and cell agree on the type, so the code reads both. -/
theorem Reads.slot : n.slot done.length = some (p.header (bytesOf done), p.cell) := by
  have type : p.cell.metax.type = (p.header (bytesOf done)).metaType :=
    keyMetaToKeyMetax_type _
  simp only [LeafNode.slot, reads.header, bind_eq_bind, bind_some]
  rw [show (p.header (bytesOf done)).headerOffset = bytesOf done from rfl, reads.itemAt]
  simp [type]

end

/-- Metadata of type 2 is only for objects that have no overflow nodes. -/
theorem Sound.ptr_of_type2 {e : Entry Data} (sound : Sound cfg e)
    (small : getKeyMetaType e.key.length e.datalen = .type2) : e.ptr = 0 := by
  have lengths : e.key.length < 255 ∧ e.datalen < 255 := by
    unfold getKeyMetaType at small
    split_ifs at small with lengths
    exact lengths
  have quarter := cfg.bigObjectSize_add
  have large := cfg.default_le
  rw [sound.ptr_eq_zero_iff, Config.bigObjectKd, decide_eq_true_eq]
  simp only [BTREE_DEFAULT_NODE_SIZE, sizeofRawNode] at large
  omega

/-- Compact metadata is the sequence number alone. -/
theorem Placed.metax_compact (compact : p.compact = true) :
    p.cell.metax = .type1 p.entry.seqno := by
  simp [cell, keyMetaToKeyMetax, KeyMeta.type, keyMeta, compact]

/-- Full metadata has every field. -/
theorem Placed.metax_full (written : p.compact = false) (sound : Sound cfg p.entry) :
    p.cell.metax = .full (getKeyMetaType p.entry.key.length p.entry.datalen) p.entry.key.length
      p.entry.datalen p.prefixIdx p.prefixLen p.entry.ptr p.entry.seqno := by
  simp only [cell, keyMetaToKeyMetax, KeyMeta.type, keyMeta, written,
    Bool.false_eq_true, if_false]
  split
  · next small => rw [sound.ptr_of_type2 small]
  · rfl

/-- Full metadata is read back. -/
theorem Placed.keyMeta_full (written : p.compact = false) :
    keyMetaFull p.entry.key.length p.entry.datalen p.prefixIdx p.prefixLen p.entry.ptr
      p.entry.seqno = p.keyMeta := by
  simp [keyMetaFull, keyMeta, written]

/-- Metadata is read back, compact metadata through the entries before. -/
theorem Reads.getMeta (reads : Reads n (done ++ p :: more) rest)
    (chained : Chained none (done ++ [p])) (sound : ∀ q ∈ done ++ [p], Sound cfg q.entry) :
    btreeLeafGetMeta n done.length = some p.keyMeta := by
  induction done using reverseRecOn generalizing p more with
  | nil =>
    have written : p.compact = false := by
      rw [Bool.eq_false_iff]
      intro compact
      obtain ⟨q, absent, -⟩ := chained.1 compact
      simp at absent
    have slot := reads.slot
    simp only [length_nil] at slot ⊢
    unfold btreeLeafGetMeta
    simp [slot, metax_full written (sound p (by simp)), keyMeta_full written]
  | append_singleton done b ih =>
    have slot := reads.slot
    rw [length_append, length_singleton] at slot ⊢
    unfold btreeLeafGetMeta
    simp only [slot, bind_eq_bind, bind_some]
    by_cases compact : p.compact = true
    · -- the metadata is that of the entry before
      have lends : b.Lends p := by
        obtain ⟨q, last, lends⟩ := (chained_append.mp chained).2.1 compact
        rw [lastOr_concat] at last
        exact some.inj last ▸ lends
      have earlier : Reads n (done ++ b :: p :: more) rest := by
        rw [← singleton_append, ← append_assoc]
        exact reads
      have before := ih earlier (chained_append.mp chained).1
        (fun q mem => sound q (mem_append_left _ mem))
      rw [metax_compact compact]
      simp [before, keyMeta1ToKeyMeta, keyMeta, lends.keylen, lends.datalen, lends.prefixIdx,
        lends.prefixLen, lends.ptr, compact]
    · have written : p.compact = false := by simpa using compact
      rw [metax_full written (sound p (by simp))]
      simp [keyMeta_full written]

end

/-- Entries that can be written down and read back. -/
structure WellPlaced (cfg : LeafConfig) (ps : List Placed) : Prop where
  sound : ∀ p ∈ ps, Sound cfg p.entry
  linked : Linked 0 none ps

namespace WellPlaced

theorem reads (split : ps = done ++ p :: rest) : Reads (render ps) (done ++ p :: rest) [] :=
  split ▸ reads_render ps

theorem slot (split : ps = done ++ p :: rest) :
    (render ps).slot done.length = some (p.header (bytesOf done), p.cell) :=
  (reads split).slot

section

variable (placed : WellPlaced cfg ps) (split : ps = done ++ p :: rest)

include placed split

/-- The metadata of every entry is read back. -/
theorem getMeta : btreeLeafGetMeta (render ps) done.length = some p.keyMeta := by
  have front : ps = (done ++ [p]) ++ rest := by rw [split, append_assoc, singleton_append]
  refine (reads split).getMeta ?_ fun q mem => placed.sound q (front ▸ mem_append_left _ mem)
  exact (chained_append.mp (front ▸ placed.linked.chained)).1

/-- The front of a key is read from its base. -/
theorem getKeyPrefix (shares : 0 < p.prefixLen) :
    ∃ b : Placed, getKeyPrefix (render ps) (render ps).nkeys p.prefixIdx = some b.entry.key ∧
      p.prefixLen ≤ common b.entry.key p.entry.key := by
  obtain ⟨b, there, -, bare, front⟩ := placed.linked.base split shares
  obtain ⟨bound, get⟩ := List.getElem?_eq_some_iff.mp there
  have around : ps = ps.take p.prefixIdx ++ b :: ps.drop (p.prefixIdx + 1) := by
    rw [← get, ← drop_eq_getElem_cons bound, take_append_drop]
  have index : (ps.take p.prefixIdx).length = p.prefixIdx := length_take_of_le bound.le
  have metadata := placed.getMeta around
  have place := slot around
  rw [index] at metadata place
  refine ⟨b, ?_, front⟩
  rw [render_nkeys]
  obtain ⟨fuel, enough⟩ := Nat.exists_eq_succ_of_ne_zero (ne_of_gt (Nat.zero_lt_of_lt bound))
  rw [enough, VarLeaf.getKeyPrefix]
  have noFront : b.keyMeta.prefixLen = 0 := bare
  have whole : b.cell.key = b.entry.key := by simp [cell, bare]
  simp [metadata, place, noFront, whole]

/-- So is its key, from the front of its base and its own part. -/
theorem getNthKeyInfo : btreeLeafGetNthKeyInfo (render ps) done.length = some (infoOf p.entry) := by
  unfold btreeLeafGetNthKeyInfo
  simp only [slot split, placed.getMeta split, bind_eq_bind, bind_some]
  by_cases bare : p.prefixLen = 0
  · simp [keyMeta, cell, header, bare, infoOf]
  · obtain ⟨b, read, front⟩ := placed.getKeyPrefix split (Nat.pos_of_ne_zero bare)
    have here := front.trans (common_le_right _ _)
    have there := front.trans (common_le_left _ _)
    rw [show p.keyMeta.prefixLen = p.prefixLen from rfl,
      show p.keyMeta.prefixIdx = p.prefixIdx from rfl, if_neg bare, read, bind_some,
      if_pos ⟨there, by simp [cell, keyMeta]; omega⟩]
    simp [keyMeta, cell, header, infoOf, take_eq_of_le_common front]

/-- So is its data. -/
theorem getDataNthKey : btreeLeafGetDataNthKey (render ps) done.length = some p.entry.inleaf := by
  have short : p.prefixLen ≤ p.entry.key.length := by
    by_cases bare : p.prefixLen = 0
    · omega
    · obtain ⟨b, -, front⟩ := placed.getKeyPrefix split (Nat.pos_of_ne_zero bare)
      exact front.trans (common_le_right _ _)
  unfold btreeLeafGetDataNthKey
  simp only [slot split, placed.getMeta split, bind_eq_bind, bind_some]
  rw [if_pos (by simp [keyMeta, cell]; omega)]
  rfl

end

end WellPlaced

/-! ## Decoding -/

/-- The entries from `index` on, as they are read: with their data in the leaf. -/
def decodeLoop (n : LeafNode) : ℕ → ℕ → Option (List (KeyInfo × Data))
  | 0, _ => some []
  | turns + 1, index => do
    let info ← btreeLeafGetNthKeyInfo n index
    let data ← btreeLeafGetDataNthKey n index
    let rest ← decodeLoop n turns (index + 1)
    some ((info, data) :: rest)

/-- All entries of a leaf, as they are read. -/
def decode (n : LeafNode) : Option (List (KeyInfo × Data)) := decodeLoop n n.nkeys 0

/-- What is read of an entry. -/
def Placed.read (p : Placed) : KeyInfo × Data := (infoOf p.entry, p.entry.inleaf)

/-- What is read depends on the entries only, not on how they are written. -/
theorem map_read_congr (same : ps.map Placed.entry = qs.map Placed.entry) :
    ps.map Placed.read = qs.map Placed.read := by
  have read : Placed.read = (fun e : Entry Data => (infoOf e, e.inleaf)) ∘ Placed.entry := rfl
  rw [read, ← List.map_map, ← List.map_map, same]

theorem WellPlaced.decodeLoop (placed : WellPlaced cfg ps) (split : ps = done ++ rest) :
    decodeLoop (render ps) rest.length done.length = some (rest.map Placed.read) := by
  induction rest generalizing done with
  | nil => rfl
  | cons p rest ih =>
    have later : ps = (done ++ [p]) ++ rest := by simp [split]
    have next := ih later
    rw [length_append, length_singleton] at next
    rw [length_cons, VarLeaf.decodeLoop]
    simp only [placed.getNthKeyInfo split, placed.getDataNthKey split, next,
      bind_eq_bind, bind_some]
    rfl

/-- A written leaf is read back as its entries. -/
theorem WellPlaced.decode (placed : WellPlaced cfg ps) :
    decode (render ps) = some (ps.map Placed.read) := by
  unfold VarLeaf.decode
  rw [render_nkeys]
  exact placed.decodeLoop (nil_append ps).symm

end Zetascale.VarLeaf
