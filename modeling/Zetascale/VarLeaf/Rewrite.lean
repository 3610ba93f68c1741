import Zetascale.VarLeaf.Layout

/-!
# Rewriting part of a leaf

Every operation on a leaf writes the entries after the place of a change anew,
up to the first that has no prefix before and after, and copies the rest with
its references shifted. `place` is how one entry is written after another,
`recode` the run of entries that are written anew.
-/

namespace Zetascale.VarLeaf

open Btree FrontCoding List Option Placed

/-- Entry `index`, written after its predecessor. -/
def place (opt : SpaceOpt) (index : ℕ) (prev : Option Placed) (e : Entry Data) : Placed :=
  match prev with
  | none => ⟨e, 0, 0, false⟩
  | some p =>
    let m := buildKeyPrefixInt opt p.entry.key e.key (index - 1) p.keyMeta (infoOf e).baseMeta
    ⟨e, m.prefixLen, m.prefixIdx, m.compactMeta⟩

/-- The entries that are written anew after `prev`, the first of which gets the
given index. At the start of a leaf, the first entry always is. -/
def recode (opt : SpaceOpt) : ℕ → Option Placed → List Placed → List Placed
  | _, _, [] => []
  | index, prev, p :: ps =>
    let q := place opt index prev p.entry
    if prev.isSome ∧ p.compact = false ∧ q.prefixLen = 0 ∧ p.prefixLen = 0 then []
    else q :: recode opt (index + 1) (some q) ps

@[simp] theorem place_entry (opt : SpaceOpt) (index : ℕ) (prev : Option Placed) (e : Entry Data) :
    (place opt index prev e).entry = e := by
  cases prev <;> rfl

theorem place_keyMeta (opt : SpaceOpt) (index : ℕ) (p : Placed) (e : Entry Data) :
    (place opt index (some p) e).keyMeta =
      buildKeyPrefixInt opt p.entry.key e.key (index - 1) p.keyMeta (infoOf e).baseMeta := rfl

/-- A front too short to pay is not taken. -/
theorem getCommonPart_le (opt : SpaceOpt) (key1 key2 : Data) :
    getCommonPart opt key1 key2 ≤ common key1 key2 := by
  unfold getCommonPart
  split_ifs <;> omega

variable {cfg : LeafConfig} {index : ℕ} {p : Placed} {e : Entry Data} {prev : Option Placed}
  {ps done rest : List Placed}

section

variable (opt : SpaceOpt)

/-- No more is taken than the predecessor takes, unless that is the base. -/
theorem place_prefixLen : (place opt index (some p) e).prefixLen =
      if 0 < p.prefixLen then min (getCommonPart opt p.entry.key e.key) p.prefixLen
      else getCommonPart opt p.entry.key e.key := by
  have built : (place opt index (some p) e).prefixLen =
      if getCommonPart opt p.entry.key e.key = 0 then 0
      else if 0 < p.prefixLen then
        if p.prefixLen < getCommonPart opt p.entry.key e.key then p.prefixLen
        else getCommonPart opt p.entry.key e.key
      else getCommonPart opt p.entry.key e.key := rfl
  rw [built]
  by_cases part : getCommonPart opt p.entry.key e.key = 0
  · simp [part]
  · rw [if_neg part]
    split_ifs <;> omega

/-- The base is that of the predecessor, or the predecessor. -/
theorem place_prefixIdx : (place opt index (some p) e).prefixIdx =
      if getCommonPart opt p.entry.key e.key = 0 then 0
      else if 0 < p.prefixLen then p.prefixIdx else index - 1 := rfl

/-- When an entry leaves its metadata to the entry before. -/
theorem place_compact : (place opt index (some p) e).compact = true ↔
      e.key.length = p.entry.key.length ∧ e.datalen = p.entry.datalen ∧
        (place opt index (some p) e).prefixLen = p.prefixLen ∧
        (place opt index (some p) e).prefixIdx = p.prefixIdx ∧ e.ptr = 0 ∧ p.prefixLen ≠ 0 ∧
        opt.spaceOpDisabled = false :=
  decide_eq_true_iff

/-- The front of the same length is taken from the same entry. -/
theorem place_compact_iff : (place opt index (some p) e).compact = true ↔
      e.key.length = p.entry.key.length ∧ e.datalen = p.entry.datalen ∧
        (place opt index (some p) e).prefixLen = p.prefixLen ∧ e.ptr = 0 ∧ p.prefixLen ≠ 0 ∧
        opt.spaceOpDisabled = false := by
  rw [place_compact]
  constructor
  · rintro ⟨keylen, datalen, prefixLen, -, rest⟩
    exact ⟨keylen, datalen, prefixLen, rest⟩
  · rintro ⟨keylen, datalen, prefixLen, ptr, shared, on⟩
    refine ⟨keylen, datalen, prefixLen, ?_, ptr, shared, on⟩
    rw [place_prefixLen, if_pos (Nat.pos_of_ne_zero shared)] at prefixLen
    rw [place_prefixIdx, if_neg (by omega), if_pos (Nat.pos_of_ne_zero shared)]

/-- Metadata is left out only where the entry before has it. -/
theorem place_lends (soundBefore : Sound cfg p.entry) (sound : Sound cfg e)
    (compact : (place opt index (some p) e).compact = true) :
    p.Lends (place opt index (some p) e) := by
  obtain ⟨keylen, datalen, prefixLen, prefixIdx, ptr, shared, -⟩ := (place_compact opt).mp compact
  have ptrBefore : p.entry.ptr = 0 := by
    rw [soundBefore.ptr_eq_zero_iff, ← keylen, ← datalen, ← sound.ptr_eq_zero_iff]
    exact ptr
  exact ⟨keylen, datalen, prefixLen, prefixIdx, ptr.trans ptrBefore.symm, Nat.pos_of_ne_zero shared⟩

/-- A key without a common front is written whole. -/
theorem place_bare (apart : getCommonPart opt p.entry.key e.key = 0) :
    (place opt index (some p) e).Bare := by
  constructor
  · rw [place_prefixLen, apart]
    simp
  · rw [place_prefixIdx, if_pos apart]

/-- A key with one shares it. -/
theorem place_shares (later : 0 < index) (part : getCommonPart opt p.entry.key e.key ≠ 0) :
    p.Shares (place opt index (some p) e) index := by
  have front := getCommonPart_le opt p.entry.key e.key
  by_cases shared : 0 < p.prefixLen
  · refine ⟨?_, ?_, .inr ⟨shared, ?_, ?_⟩⟩
    · rw [place_prefixLen, if_pos shared]
      omega
    · rw [place_prefixLen, if_pos shared, place_entry]
      omega
    · rw [place_prefixIdx, if_neg part, if_pos shared]
    · rw [place_prefixLen, if_pos shared]
      exact min_le_right _ _
  · refine ⟨?_, ?_, .inl ⟨by omega, ?_⟩⟩
    · rw [place_prefixLen, if_neg shared]
      omega
    · rw [place_prefixLen, if_neg shared, place_entry]
      exact front
    · rw [place_prefixIdx, if_neg part, if_neg shared]
      omega

/-- So an entry is written as it may be. -/
theorem place_follows (later : prev ≠ none → 0 < index)
    (soundBefore : ∀ p, prev = some p → Sound cfg p.entry) (sound : Sound cfg e) :
    (place opt index prev e).Follows index prev := by
  cases prev with
  | none => exact ⟨⟨rfl, rfl⟩, rfl⟩
  | some p =>
    refine ⟨?_, place_lends opt (soundBefore p rfl) sound⟩
    by_cases part : getCommonPart opt p.entry.key e.key = 0
    · exact .inl (place_bare opt part)
    · exact .inr (place_shares opt (later (by simp)) part)

end

section

variable (opt : SpaceOpt)

/-- And so is a run of entries. -/
theorem recode_linked
    (later : prev ≠ none → 0 < index) (soundBefore : ∀ p, prev = some p → Sound cfg p.entry)
    (sound : ∀ p ∈ ps, Sound cfg p.entry) : Linked index prev (recode opt index prev ps) := by
  induction ps generalizing index prev with
  | nil => trivial
  | cons p ps ih =>
    unfold recode
    dsimp only
    split
    · trivial
    · have here := sound p mem_cons_self
      refine ⟨place_follows opt later soundBefore here, ih (fun _ => Nat.succ_pos _) ?_
        fun q mem => sound q (mem_cons_of_mem _ mem)⟩
      intro q same
      cases same
      rw [place_entry]
      exact here

theorem recode_length_le (index : ℕ) (prev : Option Placed) (ps : List Placed) :
    (recode opt index prev ps).length ≤ ps.length := by
  induction ps generalizing index prev with
  | nil => simp [recode]
  | cons p ps ih =>
    unfold recode
    dsimp only
    split
    · exact Nat.zero_le _
    · exact Nat.succ_le_succ (ih _ _)

/-- The entries that are written anew are the first ones. -/
theorem recode_entries (index : ℕ) (prev : Option Placed) (ps : List Placed) :
    (recode opt index prev ps).map Placed.entry =
      (ps.take (recode opt index prev ps).length).map Placed.entry := by
  induction ps generalizing index prev with
  | nil => simp [recode]
  | cons p ps ih =>
    unfold recode
    dsimp only
    split
    · rfl
    · rw [map_cons, ih, length_cons, take_succ_cons, map_cons, place_entry]

/-- The first entry that is not written anew has no prefix. -/
theorem recode_rest {bulk : List Placed}
    (rest : ps.drop (recode opt index prev ps).length = p :: bulk) :
    p.compact = false ∧ p.prefixLen = 0 := by
  induction ps generalizing index prev with
  | nil => simp at rest
  | cons q ps ih =>
    unfold recode at rest
    dsimp only at rest
    split at rest
    · next stop =>
      obtain ⟨rfl, -⟩ := cons.inj rest
      exact ⟨stop.2.1, stop.2.2.2⟩
    · rw [length_cons, drop_succ_cons] at rest
      exact ih rest

end

/-! ## The copy of the entries -/

section

variable (opt : SpaceOpt)

theorem Sound.take_inleaf (sound : Sound cfg e) :
    e.inleaf.take (cfg.datalenInLeaf e.key.length e.datalen) = e.inleaf := by
  rw [← sound.inleaf, take_length]

/-- The code appends this cell. -/
theorem append_place {data : Data}
    (inleaf : data.take (cfg.datalenInLeaf e.key.length e.datalen) = e.inleaf) (index : ℕ)
    (prev : Option Placed) : appendEntryToTmpBuf cfg (place opt index prev e).keyMeta e.key data =
      (place opt index prev e).cell := by
  have keylen : (place opt index prev e).keyMeta.keylen = e.key.length := by
    simp [keyMeta]
  have datalen : (place opt index prev e).keyMeta.datalen = e.datalen := by
    simp [keyMeta]
  unfold appendEntryToTmpBuf cell
  rw [keylen, datalen, inleaf, place_entry]
  rfl

/-- The type in an entry's header tells whether it has metadata of its own. -/
theorem header_type_ne (p : Placed) (offset : ℕ) :
    (p.header offset).metaType ≠ .type1 ↔ p.compact = false := by
  cases compact : p.compact <;> simp [header, KeyMeta.type, keyMeta, compact]

section

variable (placed : WellPlaced cfg ps) (split : ps = done ++ rest)

include placed split

/-- The loop of the code writes the run. -/
theorem copyImpactedLoop_eq (prev : Placed) (index : ℕ) :
    copyImpactedLoop opt cfg (render ps) rest.length done.length index prev.entry.key prev.keyMeta =
      some (areaOf (recode opt (index + 1) (some prev) rest)) := by
  induction rest generalizing done prev index with
  | nil => rfl
  | cons p rest ih =>
    have sound : Sound cfg p.entry := placed.sound p (by simp [split])
    have later : ps = (done ++ [p]) ++ rest := by simp [split]
    have next := ih later (place opt (index + 1) (some prev) p.entry) (index + 1)
    rw [length_append, length_singleton, place_entry, place_keyMeta] at next
    have copied := append_place opt sound.take_inleaf (index + 1) (some prev)
    rw [length_cons, copyImpactedLoop, recode]
    simp only [WellPlaced.slot split, placed.getNthKeyInfo split, placed.getMeta split,
      placed.getDataNthKey split, bind_eq_bind, bind_some, header_type_ne,
      isSome_some, true_and]
    by_cases stop : p.compact = false ∧ (place opt (index + 1) (some prev) p.entry).prefixLen = 0 ∧
        p.prefixLen = 0
    · rw [if_pos stop]
      exact if_pos stop
    · rw [if_neg stop, areaOf_cons, ← copied]
      refine (if_neg stop).trans ?_
      exact congrArg (fun more => bind more _) next

/-- The run behind an entry. -/
theorem copyImpacted_after (prev : Placed) (index : ℕ) :
    copyImpactedKeysToTmpBuf opt cfg (render ps) done.length index
      (some (prev.entry.key, prev.keyMeta)) =
        some (areaOf (recode opt (index + 1) (some prev) rest)) := by
  have turns : (render ps).nkeys - done.length = rest.length := by
    rw [render_nkeys, split, length_append, Nat.add_sub_cancel_left]
  unfold copyImpactedKeysToTmpBuf
  rw [turns]
  exact copyImpactedLoop_eq opt placed split prev index

/-- The run at the start of a leaf. -/
theorem copyImpacted_first (index : ℕ) :
    copyImpactedKeysToTmpBuf opt cfg (render ps) done.length index none =
      some (areaOf (recode opt 0 none rest)) := by
  unfold copyImpactedKeysToTmpBuf
  rw [render_nkeys]
  cases rest with
  | nil => simp [split, recode, areaOf]
  | cons p rest =>
    have sound : Sound cfg p.entry := placed.sound p (by simp [split])
    have later : ps = (done ++ [p]) ++ rest := by simp [split]
    have turns : ps.length - (done.length + 1) = rest.length := by
      rw [later, length_append, length_append, length_singleton, Nat.add_sub_cancel_left]
    have next := copyImpactedLoop_eq opt placed later (place opt 0 none p.entry) 0
    have copied := append_place opt sound.take_inleaf 0 none
    rw [length_append, length_singleton] at next
    rw [if_pos (by simp [split]), turns]
    simp only [placed.getNthKeyInfo split, placed.getDataNthKey split, bind_eq_bind, bind_some]
    rw [recode, if_neg (by simp), areaOf_cons, ← copied]
    exact congrArg (fun more => bind more _) next

end

end

/-! ## The offsets -/

/-- The headers have the types and tombstones of the entries; their offsets are
not up to date. -/
def Typed (hdrs : List EntryHeader) (ps : List Placed) : Prop :=
  hdrs.map (fun hdr => (hdr.metaType, hdr.tombstone)) =
    ps.map fun p => (p.keyMeta.type, p.entry.tombstone)

theorem typed_headersFrom (offset : ℕ) (ps : List Placed) : Typed (headersFrom offset ps) ps := by
  induction ps generalizing offset with
  | nil => rfl
  | cons p ps ih => exact congrArg₂ cons rfl (ih _)

variable {hdrs : List EntryHeader}

theorem Typed.append {hdrs' : List EntryHeader} {ps' : List Placed}
    (left : Typed hdrs ps) (right : Typed hdrs' ps') : Typed (hdrs ++ hdrs') (ps ++ ps') := by
  unfold Typed at *
  rw [map_append, map_append, left, right]

theorem modify_append_length {α : Type} (items more : List α) (item : α) (f : α → α) :
    (items ++ item :: more).modify items.length f = items ++ f item :: more := by
  induction items with
  | nil => rfl
  | cons first items ih =>
    rw [cons_append, length_cons, modify_succ_cons, ih]
    rfl

/-- Metadata is read while the headers behind are still wrong. -/
theorem keyMetaxToKeyMeta_eq {n : LeafNode} {more : List Placed} {q : Placed}
    (reads : Reads n (done ++ q :: more) rest) (chained : Chained none (done ++ [q]))
    (sound : ∀ p ∈ done ++ [q], Sound cfg p.entry) :
    keyMetaxToKeyMeta n q.cell.metax done.length = some q.keyMeta := by
  by_cases compact : q.compact = true
  · rw [metax_compact compact]
    simp only [keyMetaxToKeyMeta, reads.getMeta chained sound, bind_eq_bind, bind_some]
    simp [keyMeta1ToKeyMeta, keyMeta, compact]
  · have written : q.compact = false := by simpa using compact
    rw [metax_full written (sound q (by simp))]
    simp [keyMetaxToKeyMeta, keyMeta_full written]

/-- One header after the other is made right. -/
theorem adjustOffsetsLoop_eq {todo : List Placed}
    (typed : Typed hdrs todo) (chained : Chained none (done ++ todo))
    (sound : ∀ p ∈ done ++ todo, Sound cfg p.entry) (fits : bytesOf (done ++ todo) < 2 ^ 16) :
    adjustOffsetsLoop cfg todo.length done.length (bytesOf done)
      ⟨headersFrom 0 done ++ hdrs, areaOf (done ++ todo)⟩ = some (render (done ++ todo)) := by
  induction todo generalizing done hdrs with
  | nil =>
    have noHeaders : hdrs = [] := map_eq_nil_iff.mp typed
    subst noHeaders
    simp [adjustOffsetsLoop, render]
  | cons q todo ih =>
    cases hdrs with
    | nil => exact absurd typed (by simp [Typed])
    | cons hdr hdrs =>
      obtain ⟨type, typedRest⟩ := cons.inj typed
      have regroup : done ++ q :: todo = (done ++ [q]) ++ todo := by simp
      have small : bytesOf done % 2 ^ 16 = bytesOf done := by
        rw [bytesOf_append] at fits
        exact Nat.mod_eq_of_lt (by omega)
      have set : { hdr with headerOffset := bytesOf done % 2 ^ 16 } =
          q.header (bytesOf done) := by
        rw [small]
        simp only [Prod.mk.injEq] at type
        simp [header, ← type.1, ← type.2]
      have index : done.length = (headersFrom 0 done).length := by simp
      have headers : headersFrom 0 done ++ q.header (bytesOf done) :: hdrs =
          headersFrom 0 (done ++ [q]) ++ hdrs := by
        simp [headersFrom_append, headersFrom]
      rw [regroup] at chained sound fits ⊢
      have next := ih typedRest chained sound fits
      have reads : Reads ⟨headersFrom 0 (done ++ [q]) ++ hdrs, areaOf ((done ++ [q]) ++ todo)⟩
          (done ++ q :: []) todo := ⟨⟨hdrs, rfl⟩, rfl⟩
      have read := keyMetaxToKeyMeta_eq reads (chained_append.mp chained).1
        fun p mem => sound p (mem_append_left _ mem)
      have size := cell_size (sound q (by simp))
      have type' : q.cell.metax.type = (q.header (bytesOf done)).metaType :=
        keyMetaToKeyMetax_type _
      have modified : (headersFrom 0 done ++ hdr :: hdrs).modify done.length
          (fun hdr => { hdr with headerOffset := bytesOf done % 2 ^ 16 }) =
            headersFrom 0 (done ++ [q]) ++ hdrs := by
        rw [index, modify_append_length, set, headers]
      have header := reads.header
      have item := reads.itemAt
      rw [length_cons, adjustOffsetsLoop]
      simp only [modified, header, item, read, type', if_true, bind_eq_bind, bind_some]
      rw [show getKeyMetaSpaceUsed cfg (q.header (bytesOf done)).metaType q.keyMeta =
        q.cell.size from size.symm]
      rw [length_append, length_singleton, bytesOf_append, bytesOf_cons,
        bytesOf_nil, add_zero] at next
      exact next

/-- A leaf is restored from its data area and the types in its headers. -/
theorem btreeLeafAdjustOffsets_eq
    (typed : Typed hdrs ps) (chained : Chained none ps) (sound : ∀ p ∈ ps, Sound cfg p.entry)
    (fits : bytesOf ps < 2 ^ 16) :
    btreeLeafAdjustOffsets cfg ⟨hdrs, areaOf ps⟩ = some (render ps) := by
  have count : hdrs.length = ps.length := by simpa using congrArg length typed
  unfold btreeLeafAdjustOffsets LeafNode.nkeys
  rw [count]
  have all := adjustOffsetsLoop_eq typed (show Chained none ([] ++ ps) from chained) sound fits
  exact all

/-! ## The references -/

/-- An entry with its reference shifted, if it has one beyond `base`. -/
def Placed.adjust (base shift : ℤ) (p : Placed) : Placed :=
  { p with prefixIdx := if 0 < p.prefixLen ∧ base < p.prefixIdx
      then ((p.prefixIdx + shift) % 2 ^ 16).toNat else p.prefixIdx }

theorem Placed.adjust_bare (bare : p.prefixLen = 0) (base shift : ℤ) : p.adjust base shift = p := by
  unfold adjust
  rw [if_neg (by omega)]

/-- A shift changes nothing but metadata. -/
theorem Placed.adjust_cell (base shift : ℤ) (p : Placed) :
    (p.adjust base shift).cell = { p.cell with metax := p.cell.metax.shift base shift } := by
  cases compact : p.compact <;>
    simp [cell, adjust, keyMetaToKeyMetax, KeyMeta.type, keyMeta, compact,
      KeyMetax.shift]

theorem Placed.adjust_size (base shift : ℤ) (p : Placed) :
    (p.adjust base shift).cell.size = p.cell.size := by
  rw [Cell.size, Cell.size]
  simp only [cell, keyMetaToKeyMetax_type]
  rfl

/-- The code shifts the reference of one entry. -/
theorem btreeLeafAdjustPrefixIdx_eq (base shift : ℤ) (done : List Placed) (p : Placed)
    (rest : List Placed) :
    btreeLeafAdjustPrefixIdx (render (done ++ p :: rest)) done.length base shift =
      some (render (done ++ p.adjust base shift :: rest)) := by
  have place := WellPlaced.slot (rfl : done ++ p :: rest = done ++ p :: rest)
  have headers : headersFrom (0 + bytesOf done) (p.adjust base shift :: rest) =
      headersFrom (0 + bytesOf done) (p :: rest) := by
    simp only [headersFrom, adjust_size]
    rfl
  have modified := Extents.modifyAt_total Cell.size_pos
    (fun cell => { cell with metax := cell.metax.shift base shift }) (areaOf done) p.cell
    (areaOf rest)
  unfold btreeLeafAdjustPrefixIdx
  simp only [place, bind_eq_bind, bind_some]
  rw [show (render (done ++ p :: rest)).area = areaOf done ++ p.cell :: areaOf rest from
      areaOf_append done (p :: rest), show (p.header (bytesOf done)).headerOffset =
      Extents.total Cell.size (areaOf done) from rfl, modified, bind_some, render, render,
    headersFrom_append, headersFrom_append, headers, areaOf_append, areaOf_append,
    areaOf_cons, areaOf_cons, adjust_cell]

/-- It shifts those of all entries from an index on. -/
theorem btreeLeafAdjustPrefixIdxes_eq (base shift : ℤ) (done todo : List Placed) :
    btreeLeafAdjustPrefixIdxes base shift todo.length done.length (render (done ++ todo)) =
      some (render (done ++ todo.map (Placed.adjust base shift))) := by
  induction todo generalizing done with
  | nil => rfl
  | cons p todo ih =>
    have next := ih (done ++ [p.adjust base shift])
    rw [length_append, length_singleton, append_assoc, append_assoc] at next
    rw [length_cons, btreeLeafAdjustPrefixIdxes, btreeLeafAdjustPrefixIdx_eq]
    exact next

/-- An entry that is moved with its base: the base was at index `lo` or later,
which becomes index `lo'`. -/
def Placed.rebase (lo lo' : ℕ) (p : Placed) : Placed :=
  { p with prefixIdx := if p.prefixLen = 0 then p.prefixIdx else p.prefixIdx - lo + lo' }

theorem Placed.rebase_bare (bare : p.prefixLen = 0) (lo lo' : ℕ) : p.rebase lo lo' = p := by
  unfold rebase
  rw [if_pos bare]

/-- Entries after one that has no prefix may be moved. -/
theorem Linked.rebase {lo lo' : ℕ} (later : lo ≤ index)
    (within : p.prefixLen = 0 ∨ lo ≤ p.prefixIdx) (linked : Linked (index + 1) (some p) ps) :
    Linked (index - lo + lo' + 1) (some (p.rebase lo lo')) (ps.map (Placed.rebase lo lo')) := by
  induction ps generalizing index p with
  | nil => trivial
  | cons q ps ih =>
    obtain ⟨⟨written, lent⟩, rest⟩ := linked
    have within' : q.prefixLen = 0 ∨ lo ≤ q.prefixIdx := by
      rcases written with bare | share
      · exact .inl bare.1
      · rcases share.base with ⟨-, index⟩ | ⟨positive, same, -⟩
        · exact .inr (by omega)
        · exact .inr (same ▸ within.resolve_left positive.ne')
    have next := ih (Nat.le_succ_of_le later) within' rest
    rw [show index + 1 - lo + lo' + 1 = index - lo + lo' + 1 + 1 by omega] at next
    refine ⟨⟨?_, fun compact => ?_⟩, next⟩
    · rcases written with bare | share
      · left
        exact ⟨bare.1, by simp [rebase, bare.1, bare.2]⟩
      · right
        have positive := share.positive
        refine ⟨positive, share.le_common, ?_⟩
        rcases share.base with ⟨bare, index⟩ | ⟨shares, same, less⟩
        · left
          refine ⟨bare, ?_⟩
          simp only [rebase, positive.ne', if_false]
          omega
        · right
          refine ⟨shares, ?_, less⟩
          simp [rebase, positive.ne', shares.ne', same]
    · have lends := lent compact
      exact { lends with
        prefixIdx := by simp only [rebase, lends.prefixLen, lends.prefixIdx] }

/-- Linked entries refer to entries between the first base and themselves. -/
theorem Linked.references {lo : ℕ} (later : lo ≤ index)
    (within : p.prefixLen = 0 ∨ lo ≤ p.prefixIdx ∧ p.prefixIdx < index)
    (linked : Linked (index + 1) (some p) ps) :
    ∀ q ∈ ps, 0 < q.prefixLen → lo ≤ q.prefixIdx ∧ q.prefixIdx < index + ps.length := by
  induction ps generalizing index p with
  | nil => simp
  | cons q ps ih =>
    obtain ⟨⟨written, -⟩, rest⟩ := linked
    have here : q.prefixLen = 0 ∨ lo ≤ q.prefixIdx ∧ q.prefixIdx < index + 1 := by
      rcases written with bare | share
      · exact .inl bare.1
      · rcases share.base with ⟨-, index⟩ | ⟨positive, same, -⟩
        · exact .inr (by omega)
        · have bounds := within.resolve_left positive.ne'
          exact .inr (by omega)
    intro r mem shares
    rw [length_cons]
    rcases mem_cons.mp mem with rfl | mem
    · have bounds := here.resolve_left shares.ne'
      omega
    · have bounds := ih (Nat.le_succ_of_le later) here rest r mem shares
      omega

end Zetascale.VarLeaf
