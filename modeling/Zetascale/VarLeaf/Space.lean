import Zetascale.VarLeaf.Ops

/-!
# The space of a leaf

When a removal keeps a leaf within its node. Entries that shared the front of
the removed entry are written anew and may become longer, and one that left its
metadata to the removed entry has to get its own. Nothing in a removal tests
for this. By how much the entries grow is read off from the keys of neighbours
and from how the entries are written before.
-/

namespace Zetascale.VarLeaf

open Btree FrontCoding List Placed

/-- A leaf that holds entries which can be read back, within its node. -/
structure WellFormed (cfg : LeafConfig) (n : LeafNode) (ps : List Placed) : Prop where
  placed : WellPlaced cfg ps
  rendered : n = render ps
  fits : spaceOf ps ≤ cfg.nodesizeLessHdr

/-! ## How much entries grow -/

/-- The entries behind a gap that the removal comes to: up to the first with no front and with
metadata of its own that has no front in common with the key before it. -/
def affected (opt : SpaceOpt) : Option Data → List Placed → List Placed
  | _, [] => []
  | before, p :: ps =>
    if p.compact = false ∧ p.prefixLen = 0 ∧
        before.map (getCommonPart opt · p.entry.key) = some 0 then []
    else p :: affected opt (some p.entry.key) ps

/-- The front an entry can have behind another with its front: what the keys have in common, but no
more than the other has of its own base. -/
def frontBehind (opt : SpaceOpt) : Option (Entry Data × ℕ) → Entry Data → ℕ
  | none, _ => 0
  | some (e, front), next =>
    if front = 0 then getCommonPart opt e.key next.key
    else min front (getCommonPart opt e.key next.key)

/-- Behind another with its front, an entry can leave its metadata to that one. -/
def Borrows (opt : SpaceOpt) : Option (Entry Data × ℕ) → Entry Data → Prop
  | none, _ => False
  | some (e, front), next =>
    next.key.length = e.key.length ∧ next.datalen = e.datalen ∧ next.ptr = 0 ∧ front ≠ 0 ∧
      frontBehind opt (some (e, front)) next = front ∧ opt.spaceOpDisabled = false

instance (opt : SpaceOpt) (prev : Option (Entry Data × ℕ)) (e : Entry Data) :
    Decidable (Borrows opt prev e) :=
  match prev with
  | none => inferInstanceAs (Decidable False)
  | some _ => inferInstanceAs (Decidable (_ ∧ _))

/-- The size of an entry's metadata, left to the entry before it or not. -/
def metaSize (e : Entry Data) (compact : Bool) : ℕ :=
  if compact then KeyMetaType.type1.size else (getKeyMetaType e.key.length e.datalen).size

/-- By how many bytes entries grow, one behind the other: by the front they lose and by the metadata
they can no longer leave to the entry before. -/
def growth (opt : SpaceOpt) : Option (Entry Data × ℕ) → List Placed → ℤ
  | _, [] => 0
  | prev, p :: ps =>
    (p.prefixLen - frontBehind opt prev p.entry : ℤ) +
      (metaSize p.entry (decide (Borrows opt prev p.entry)) - metaSize p.entry p.compact : ℤ) +
      growth opt (some (p.entry, frontBehind opt prev p.entry)) ps

/-- What an entry shows to the one behind it. -/
def Placed.view (p : Placed) : Entry Data × ℕ := (p.entry, p.prefixLen)

section

variable {cfg : LeafConfig} (opt : SpaceOpt) {index : ℕ} {p : Placed} {e : Entry Data}
  {prev : Option Placed} {ps done rest : List Placed}

/-- The front depends on the entry before only. -/
theorem place_prefixLen_eq :
    (place opt index prev e).prefixLen = frontBehind opt (prev.map Placed.view) e := by
  cases prev with
  | none => rfl
  | some p =>
    rw [place_prefixLen]
    simp only [Option.map_some, view, frontBehind]
    split_ifs <;> omega

/-- So does what is left to it. -/
theorem place_compact_eq :
    (place opt index prev e).compact = decide (Borrows opt (prev.map Placed.view) e) := by
  cases prev with
  | none => rfl
  | some p =>
    rw [Bool.eq_iff_iff, place_compact_iff, decide_eq_true_iff, place_prefixLen_eq]
    simp only [Option.map_some, view, Borrows]
    tauto

theorem frontBehind_le (prev : Option (Entry Data × ℕ)) (e : Entry Data) :
    frontBehind opt prev e ≤ e.key.length := by
  cases prev with
  | none => exact Nat.zero_le _
  | some before =>
    have le := (getCommonPart_le opt before.1.key e.key).trans (common_le_right _ _)
    simp only [frontBehind]
    split_ifs <;> omega

theorem frontBehind_eq_zero_iff (before : Entry Data × ℕ) :
    frontBehind opt (some before) e = 0 ↔ getCommonPart opt before.1.key e.key = 0 := by
  simp only [frontBehind]
  split_ifs <;> omega

/-- A front is part of its entry's key. -/
theorem Linked.prefixLen_le (linked : Linked index prev ps) :
    ∀ p ∈ ps, p.prefixLen ≤ p.entry.key.length := by
  induction ps generalizing index prev with
  | nil => simp
  | cons p ps ih =>
    refine forall_mem_cons.mpr ⟨?_, ih linked.2⟩
    cases prev with
    | none => exact linked.1.1.1 ▸ Nat.zero_le _
    | some q =>
      rcases linked.1.1 with bare | shares
      · exact bare.1 ▸ Nat.zero_le _
      · exact shares.le_common.trans (common_le_right _ _)

/-- The size of a cell, part by part. -/
theorem Placed.cell_size_eq (front : p.prefixLen ≤ p.entry.key.length) :
    (p.cell.size : ℤ) = metaSize p.entry p.compact + p.entry.key.length - p.prefixLen +
      p.entry.inleaf.length := by
  have size : p.cell.size = metaSize p.entry p.compact + (p.entry.key.length - p.prefixLen) +
      p.entry.inleaf.length := by
    cases compact : p.compact <;>
      simp [Cell.size, cell, keyMetaToKeyMetax_type, KeyMeta.type, keyMeta, metaSize, compact,
        KeyMetaType.size]
  omega

/-- An entry is written anew if it is affected. -/
theorem recode_cons (index : ℕ) (prev : Option Placed) (p : Placed) (ps : List Placed) :
    (affected opt (prev.map (·.entry.key)) (p :: ps) = [] ∧ recode opt index prev (p :: ps) = []) ∨
      (affected opt (prev.map (·.entry.key)) (p :: ps) = p :: affected opt (some p.entry.key) ps ∧
        recode opt index prev (p :: ps) = place opt index prev p.entry ::
          recode opt (index + 1) (some (place opt index prev p.entry)) ps) := by
  have stop : (p.compact = false ∧ p.prefixLen = 0 ∧
        (prev.map (·.entry.key)).map (getCommonPart opt · p.entry.key) = some 0) ↔
      prev.isSome ∧ p.compact = false ∧ (place opt index prev p.entry).prefixLen = 0 ∧
        p.prefixLen = 0 := by
    cases prev with
    | none => simp
    | some q =>
      rw [place_prefixLen_eq]
      simp only [Option.map_some, frontBehind_eq_zero_iff, view, Option.isSome_some,
        Option.some.injEq]
      tauto
  rw [affected, recode]
  by_cases here : prev.isSome ∧ p.compact = false ∧
      (place opt index prev p.entry).prefixLen = 0 ∧ p.prefixLen = 0
  · exact .inl ⟨if_pos (stop.mpr here), if_pos here⟩
  · exact .inr ⟨if_neg (mt stop.mp here), if_neg here⟩

/-- The entries written anew are the affected ones, and take as much more space as these grow. -/
theorem spaceOf_recode (index : ℕ) (prev : Option Placed)
    (fronts : ∀ p ∈ ps, p.prefixLen ≤ p.entry.key.length) :
    affected opt (prev.map (·.entry.key)) ps = ps.take (recode opt index prev ps).length ∧
      (spaceOf (recode opt index prev ps) : ℤ) =
        spaceOf (ps.take (recode opt index prev ps).length) +
          growth opt (prev.map Placed.view) (affected opt (prev.map (·.entry.key)) ps) := by
  induction ps generalizing index prev with
  | nil => exact ⟨rfl, rfl⟩
  | cons p ps ih =>
    obtain ⟨front, later⟩ := forall_mem_cons.mp fronts
    rcases recode_cons opt index prev p ps with ⟨none, stops⟩ | ⟨here, goes⟩
    · rw [none, stops]
      exact ⟨rfl, rfl⟩
    · obtain ⟨same, space⟩ := ih (index + 1) (some (place opt index prev p.entry)) later
      have new : (place opt index prev p.entry).prefixLen ≤
          (place opt index prev p.entry).entry.key.length := by
        rw [place_prefixLen_eq, place_entry]
        exact frontBehind_le opt _ _
      have sizeNew := cell_size_eq new
      have sizeOld := cell_size_eq front
      rw [place_prefixLen_eq, place_compact_eq, place_entry] at sizeNew
      simp only [Option.map_some, place_entry, view, place_prefixLen_eq] at same space
      rw [here, goes, length_cons, take_succ_cons, same]
      refine ⟨rfl, ?_⟩
      rw [same] at space
      rw [spaceOf_cons, spaceOf_cons, growth]
      push_cast
      omega

/-! ## Removal -/

/-- The entries behind a removed one grow by no more than it had and was free. -/
def RemovalFits (cfg : LeafConfig) (opt : SpaceOpt) (done rest : List Placed) (p : Placed) : Prop :=
  growth opt ((lastOr none done).map Placed.view)
      (affected opt ((lastOr none done).map (·.entry.key)) rest) ≤
    (spaceOf [p] + (cfg.nodesizeLessHdr - spaceOf (done ++ p :: rest)) : ℕ)

variable {n : LeafNode}

/-- The result of a removal fits if the growth does. -/
theorem removed_fits_iff (placed : WellPlaced cfg (done ++ p :: rest))
    (fits : spaceOf (done ++ p :: rest) ≤ cfg.nodesizeLessHdr) :
    spaceOf (removed opt done rest) ≤ cfg.nodesizeLessHdr ↔ RemovalFits cfg opt done rest p := by
  have fronts : ∀ q ∈ rest, q.prefixLen ≤ q.entry.key.length := fun q mem =>
    placed.linked.prefixLen_le q (mem_append_right _ (mem_cons_of_mem _ mem))
  obtain ⟨-, space⟩ := spaceOf_recode opt done.length (lastOr none done) fronts
  have parts : spaceOf rest = spaceOf (rest.take (removeRun opt done rest).length) +
      spaceOf (rest.drop (removeRun opt done rest).length) := by
    rw [← spaceOf_append, take_append_drop]
  rw [RemovalFits, removed, spaceOf_append, spaceOf_append, spaceOf_adjust]
  rw [spaceOf_append, spaceOf_cons] at fits ⊢
  rw [spaceOf_cons, spaceOf_nil]
  rw [← removeRun] at space
  omega

/-- A removal has a result, and keeps the leaf within its node, when it fits. -/
theorem removal_within_iff (leaf : WellFormed cfg n ps) (split : ps = done ++ p :: rest) :
    (∃ n', btreeLeafRemoveKeyIndex opt cfg n done.length = some n' ∧
        n'.usedSpace ≤ cfg.nodesizeLessHdr) ↔ RemovalFits cfg opt done rest p := by
  have fits := leaf.fits
  rw [split] at fits
  rw [← removed_fits_iff opt (split ▸ leaf.placed) fits, leaf.rendered,
    btreeLeafRemoveKeyIndex_eq opt leaf.placed split]
  constructor
  · rintro ⟨n', result, -⟩
    by_contra large
    rw [if_neg large] at result
    simp at result
  · intro small
    refine ⟨_, if_pos small, ?_⟩
    rw [render_usedSpace]
    exact small

end

/-! ## Leaves written from left to right -/

/-- Place entries from left to right. -/
def encodeFrom (opt : SpaceOpt) : ℕ → Option Placed → List (Entry Data) → List Placed
  | _, _, [] => []
  | index, prev, e :: es =>
    place opt index prev e :: encodeFrom opt (index + 1) (some (place opt index prev e)) es

/-- The entries of a leaf that is written under one setting. -/
def encode (opt : SpaceOpt) (es : List (Entry Data)) : List Placed := encodeFrom opt 0 none es

section

variable {cfg : LeafConfig} {index : ℕ} {es : List (Entry Data)} (opt : SpaceOpt)

theorem encodeFrom_entries (index : ℕ) (prev : Option Placed) (es : List (Entry Data)) :
    (encodeFrom opt index prev es).map Placed.entry = es := by
  induction es generalizing index prev with
  | nil => rfl
  | cons e es ih => rw [encodeFrom, map_cons, place_entry, ih]

/-- Entries written one behind the other are linked. -/
theorem encodeFrom_linked {prev : Option Placed}
    (later : prev ≠ none → 0 < index) (soundBefore : ∀ p, prev = some p → Sound cfg p.entry)
    (sound : ∀ e ∈ es, Sound cfg e) : Linked index prev (encodeFrom opt index prev es) := by
  induction es generalizing index prev with
  | nil => trivial
  | cons e es ih =>
    have here := sound e mem_cons_self
    refine ⟨place_follows opt later soundBefore here, ih (fun _ => Nat.succ_pos _) ?_
      fun f mem => sound f (mem_cons_of_mem _ mem)⟩
    intro p same
    rw [← Option.some.inj same, place_entry]
    exact here

/-- Such a leaf can be read back. -/
theorem encode_wellPlaced (sound : ∀ e ∈ es, Sound cfg e) : WellPlaced cfg (encode opt es) where
  sound := fun p mem => sound p.entry (by
    have entry := mem_map_of_mem (f := Placed.entry) mem
    rwa [encode, encodeFrom_entries] at entry)
  linked := encodeFrom_linked opt (fun later => absurd rfl later) (by simp) sound

end

/-- A tree with nodes of the default size. -/
def defaultLeaves : LeafConfig where
  toConfig := { defaultSizes with keylen := length }
  default_le := le_rfl
  le_max := by decide

/-- Compression of fronts of at least ten bytes. -/
def shortestFronts : SpaceOpt := ⟨false, 10, by decide, by decide⟩

/-- An object of zero bytes that is all in the leaf. -/
def zeros (key : Data) (datalen : ℕ) : Entry Data :=
  { key, seqno := 1, tombstone := false, datalen, ptr := 0, inleaf := replicate datalen 0 }

/-- Ten times the same byte. -/
def front : Data := [97, 97, 97, 97, 97, 97, 97, 97, 97, 97]

theorem zeros_sound {key : Data} {datalen : ℕ}
    (small : key.length + datalen < defaultLeaves.bigObjectSize)
    (accepted : key.length < defaultLeaves.maxKeySize) :
    Sound defaultLeaves (zeros key datalen) := by
  have plain : defaultLeaves.bigObjectKd key.length datalen = false := by
    simp only [Config.bigObjectKd, decide_eq_false_iff_not, not_le]
    exact small
  refine ⟨?_, accepted, ?_⟩
  · simp [zeros, Config.datalenInLeaf, plain]
  · simp [zeros, plain]

/-- The space of entries, without a look at their data. -/
theorem spaceOf_eq_sum {cfg : LeafConfig} {ps : List Placed} (sound : ∀ p ∈ ps, Sound cfg p.entry) :
    spaceOf ps = (ps.map fun p => sizeofEntryHeader +
      getKeyMetaSpaceUsed cfg p.keyMeta.type p.keyMeta).sum := by
  induction ps with
  | nil => rfl
  | cons p ps ih =>
    rw [spaceOf_cons, Placed.cell_size (sound p mem_cons_self),
      ih fun q mem => sound q (mem_cons_of_mem _ mem), map_cons, sum_cons]

/-- A leaf in lexicographic order that starts with the common front of the keys of three objects as
a key. Two other objects follow, the last of the given length. -/
def crowded (datalen : ℕ) : List (Entry Data) :=
  [zeros front 0, zeros (front ++ [0, 0]) 1900, zeros (front ++ [0, 1]) 1900,
    zeros (front ++ [1, 0]) 1900, zeros [98] 1900, zeros [99] datalen]

theorem crowded_sound {datalen : ℕ} (small : datalen < 1900) :
    ∀ e ∈ crowded datalen, Sound defaultLeaves e := by
  intro e mem
  simp only [crowded, mem_cons, not_mem_nil, or_false] at mem
  rcases mem with rfl | rfl | rfl | rfl | rfl | rfl
  case inr.inr.inr.inr.inr => exact zeros_sound (by change 1 + datalen < 1954; omega) (by decide)
  all_goals exact zeros_sound (by decide) (by decide)

/-- With data of 238 bytes the leaf is full. -/
theorem crowded_space : spaceOf (encode shortestFronts (crowded 200)) = 7926 ∧
    spaceOf (encode shortestFronts (crowded 238)) = defaultLeaves.nodesizeLessHdr := by
  constructor
  · rw [spaceOf_eq_sum (encode_wellPlaced shortestFronts (crowded_sound (by decide))).sound]
    decide +kernel
  · rw [spaceOf_eq_sum (encode_wellPlaced shortestFronts (crowded_sound (by decide))).sound]
    decide +kernel

theorem crowded_wellFormed {datalen : ℕ} (small : datalen < 1900)
    (fits : spaceOf (encode shortestFronts (crowded datalen)) ≤ defaultLeaves.nodesizeLessHdr) :
    WellFormed defaultLeaves (render (encode shortestFronts (crowded datalen)))
      (encode shortestFronts (crowded datalen)) :=
  ⟨encode_wellPlaced shortestFronts (crowded_sound small), rfl, fits⟩

/-- The entry that the leaf starts with. -/
def crowdedFirst : Placed := ⟨zeros front 0, 0, 0, false⟩

/-- Behind the first entry, one gets the whole front and the next two lose their compact metadata. -/
theorem crowded_removal (datalen : ℕ) : RemovalFits defaultLeaves shortestFronts []
      (encode shortestFronts (crowded datalen)).tail crowdedFirst ↔
    15 + spaceOf (encode shortestFronts (crowded datalen)) ≤ defaultLeaves.nodesizeLessHdr := by
  have grown : growth shortestFronts none
      (affected shortestFronts none (encode shortestFronts (crowded datalen)).tail) = 41 := rfl
  have size : spaceOf [crowdedFirst] = 26 := by decide
  have whole : [] ++ crowdedFirst :: (encode shortestFronts (crowded datalen)).tail =
      encode shortestFronts (crowded datalen) := rfl
  rw [RemovalFits, whole, size]
  simp only [lastOr, Option.map_none, grown]
  omega

/-- With room for what the entries behind it grow, the first entry can be removed. -/
theorem removal_within_crowded :
    ∃ n', btreeLeafRemoveKeyIndex shortestFronts defaultLeaves
        (render (encode shortestFronts (crowded 200))) ([] : List Placed).length = some n' ∧
      n'.usedSpace ≤ defaultLeaves.nodesizeLessHdr := by
  have room : 15 + spaceOf (encode shortestFronts (crowded 200)) ≤ defaultLeaves.nodesizeLessHdr := by
    rw [crowded_space.1]
    decide
  have leaf := crowded_wellFormed (show 200 < 1900 by decide) (by omega)
  exact (removal_within_iff shortestFronts leaf rfl).mpr ((crowded_removal 200).mpr room)

/-- The leaf is full to the last byte. Without its first entry it would take
fifteen bytes more: the removal copies the data area over the headers. -/
theorem crowded_removal_overflows :
    WellFormed defaultLeaves (render (encode shortestFronts (crowded 238)))
        (encode shortestFronts (crowded 238)) ∧
      ((crowded 238).map Entry.key).Pairwise (· < ·) ∧
      btreeLeafRemoveKeyIndex shortestFronts defaultLeaves
        (render (encode shortestFronts (crowded 238))) 0 = none := by
  have space := crowded_space.2
  have leaf := crowded_wellFormed (show 238 < 1900 by decide) space.le
  have split : encode shortestFronts (crowded 238) =
      [] ++ crowdedFirst :: (encode shortestFronts (crowded 238)).tail := rfl
  refine ⟨leaf, by decide, (btreeLeafRemoveKeyIndex_eq shortestFronts leaf.placed split).trans
    (if_neg ?_)⟩
  rw [removed_fits_iff shortestFronts (split ▸ leaf.placed) (split ▸ leaf.fits), crowded_removal]
  omega

end Zetascale.VarLeaf
