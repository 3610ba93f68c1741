import Zetascale.VarLeaf.Space

/-!
# Splitting a leaf

`btree_leaf_split` writes the first entries of the new leaf anew under the
setting of today and copies the others, and then shifts the references of all
of them. A leaf that was written under another setting is split rightly when
the entries written anew all refer to the first of them, and fit. That is so
when, of the entries the split comes to, none shares a front behind one that
shares none, and when they do not grow by more than the left leaf leaves.
-/

namespace Zetascale.VarLeaf

open Btree FrontCoding List Option Placed

/-- The entries of the right leaf before their references are shifted. -/
def splitRight (opt : SpaceOpt) (rest : List Placed) : List Placed :=
  recode opt 0 none rest ++ rest.drop (recode opt 0 none rest).length

variable {cfg : LeafConfig} {p : Placed} {index : ℕ}

section

variable (opt : SpaceOpt) {ps done rest : List Placed}

theorem splitRight_sound (placed : WellPlaced cfg ps) (split : ps = done ++ rest) :
    ∀ q ∈ splitRight opt rest, Sound cfg q.entry :=
  forall_mem_append.mpr ⟨recode_sound opt (rest_sound placed split),
    fun q late => rest_sound placed split q (mem_of_mem_drop late)⟩

/-- What is written anew at the start is a leaf of its own. -/
theorem recode_wellPlaced (placed : WellPlaced cfg ps) (split : ps = done ++ rest) :
    WellPlaced cfg (recode opt 0 none rest) where
  sound := recode_sound opt (rest_sound placed split)
  linked := recode_linked opt (fun behind => absurd rfl behind) (by simp) (rest_sound placed split)

theorem splitRight_entries : (splitRight opt rest).map Placed.entry = rest.map Placed.entry := by
  rw [splitRight, map_append, recode_entries, ← map_append, take_append_drop]

/-- The code splits a leaf if the right part fits. -/
theorem btreeLeafSplit_eq (placed : WellPlaced cfg ps) (split : ps = (done ++ [p]) ++ rest)
    (nonempty : rest ≠ []) : btreeLeafSplit opt cfg (render ps) done.length =
      if spaceOf (splitRight opt rest) ≤ cfg.nodesizeLessHdr
      then some (render (done ++ [p]),
        render ((splitRight opt rest).map (Placed.adjust 0 (-(done.length + 1)))),
        p.entry.key, p.entry.seqno)
      else none := by
  obtain ⟨q, more, rfl⟩ := exists_cons_of_ne_nil nonempty
  have start : (done ++ [p]).length = done.length + 1 := by simp
  have le := recode_length_le opt 0 none (q :: more)
  have header := (WellPlaced.reads split).header
  have copied := copyImpacted_first opt placed split 0
  have bulk := areaFrom_drop split le
  have hdrs := headers_drop split
  have hdrs' := headers_take split
  have around : ps = done ++ p :: q :: more := by simp [split]
  have last := placed.getNthKeyInfo around
  have count : (areaOf (recode opt 0 none (q :: more))).length =
      (recode opt 0 none (q :: more)).length := length_map _
  have typed := typed_setMetaTypes (typed_headersFrom (bytesOf (done ++ [p])) (q :: more)) le
    (recode_entries opt _ _ _)
  obtain ⟨prev, linked⟩ := bulk_linked placed split le
  have chained : Chained none (splitRight opt (q :: more)) :=
    chained_append.mpr ⟨(recode_wellPlaced opt placed split).linked.chained,
      (startsBare_drop_recode opt _ _ _).chained linked.chained⟩
  have stored := store_eq (show Typed _ ([] ++ splitRight opt (q :: more)) from typed) chained
    (splitRight_sound opt placed split) 0 (-(done.length + 1))
  have area : (render ps).area = areaOf (done ++ [p]) ++ areaOf (q :: more) := by
    rw [split]
    exact areaOf_append _ _
  have leftArea : Extents.before Cell.size (render ps).area
      (q.header (bytesOf (done ++ [p]))).headerOffset = some (areaOf (done ++ [p])) := by
    rw [area]
    exact Extents.before_total Cell.size_pos _ _
  rw [start] at header copied bulk hdrs hdrs'
  unfold btreeLeafSplit
  simp only [header, leftArea, copied, count, bulk, hdrs, hdrs', last, bind_eq_bind, bind_some]
  have result := congrArg (fun right => Option.bind right fun right =>
    some (render (done ++ [p]), right, p.entry.key, p.entry.seqno)) stored
  simp only [bind_assoc, length_nil, Nat.sub_zero, nil_append] at result
  refine Eq.trans ?_ (result.trans ?_)
  · rw [splitRight, areaOf_append (recode opt 0 none (q :: more))]
    rfl
  · split_ifs <;> rfl

/-! ## References -/

/-- The entries written anew refer to the first of them. -/
def RefersToFirst (run : List Placed) : Prop := ∀ q ∈ run, q.prefixIdx = 0

theorem refersToFirst_cons {q : Placed} {run : List Placed} :
    RefersToFirst (q :: run) ↔ q.prefixIdx = 0 ∧ RefersToFirst run := forall_mem_cons

/-- References to the first entry are not shifted. -/
theorem map_adjust_of_refersToFirst {run : List Placed} (refers : RefersToFirst run) (shift : ℤ) :
    run.map (Placed.adjust 0 shift) = run := by
  rw [List.map_congr_left (g := id), List.map_id]
  intro q mem
  refine Placed.ext rfl rfl ?_ rfl
  simp [adjust, refers q mem]

/-- A right leaf that fits and whose new entries refer to the first is well
placed. -/
theorem splitRight_wellPlaced (placed : WellPlaced cfg ps) (split : ps = (done ++ [p]) ++ rest)
    (fits : spaceOf ps ≤ cfg.nodesizeLessHdr) (refers : RefersToFirst (recode opt 0 none rest)) :
    WellPlaced cfg ((splitRight opt rest).map (Placed.adjust 0 (-(done.length + 1)))) := by
  have le := recode_length_le opt 0 none rest
  obtain ⟨prev, linked⟩ := bulk_linked placed split le
  have small := (small_of_fits fits).2
  rw [splitRight, map_append, map_adjust_of_refersToFirst refers]
  refine wellPlaced_spliced (recode_wellPlaced opt placed split) (startsBare_drop_recode opt _ _ _)
    linked (fun q mem => rest_sound placed split q (mem_of_mem_drop mem)) ?_
  intro k above below
  simp only [split, length_append, length_singleton, length_drop] at *
  have bound : (k : ℤ) + -(done.length + 1) < 2 ^ 16 := by omega
  omega

/-- An entry without a prefix has its own metadata. -/
theorem written_of_bare {prev : Option Placed} {b : Placed}
    (follows : b.Follows index prev) (bare : b.prefixLen = 0) : b.compact = false := by
  cases prev with
  | none => exact follows.2
  | some a =>
    rw [Bool.eq_false_iff]
    intro compact
    have lends := follows.2 compact
    exact lends.shared.ne' (lends.prefixLen.symm.trans bare)

/-- Otherwise there is an entry that refers to the one before it, which is not
the first. -/
theorem exists_reference {run : List Placed} (linked : Linked 0 none run)
    (refers : ¬ RefersToFirst run) :
    ∃ before b q after, run = (before ++ [b]) ++ q :: after ∧ before ≠ [] ∧ b.prefixLen = 0 ∧
      b.compact = false ∧ 0 < q.prefixLen ∧ q.prefixIdx = before.length ∧ q.compact = false := by
  induction run using reverseRecOn with
  | nil => exact absurd (fun q mem => absurd mem (by simp)) refers
  | append_singleton run q ih =>
    obtain ⟨linkedRun, follows, -⟩ := linked_append.mp linked
    by_cases earlier : RefersToFirst run
    · -- the last entry is the first that refers to another
      have reference : q.prefixIdx ≠ 0 := by
        intro first
        exact refers (forall_mem_append.mpr ⟨earlier, forall_mem_singleton.mpr first⟩)
      induction run using reverseRecOn with
      | nil => exact absurd follows.1.2 reference
      | append_singleton before b _ =>
        rw [lastOr_concat, zero_add, length_append, length_singleton] at follows
        have shares := follows.1.resolve_left fun bare => reference bare.2
        rcases shares.base with ⟨bare, index⟩ | ⟨-, same, -⟩
        · refine ⟨before, b, q, [], rfl, ?_, bare,
            written_of_bare (linked_append.mp linkedRun).2.1 bare, shares.positive, by omega, ?_⟩
          · rintro rfl
            exact reference (by simpa using index)
          · rw [Bool.eq_false_iff]
            intro compact
            exact (follows.2 compact).shared.ne' bare
        · exact absurd (same.trans (earlier b (by simp))) reference
    · obtain ⟨before, b, r, after, split, rest⟩ := ih linkedRun earlier
      exact ⟨before, b, r, after ++ [q], by rw [split, append_assoc]; rfl, rest⟩

/-- What the metadata of an entry says of its prefix. -/
theorem metax_injective {q : Placed} (same : q.cell.metax = p.cell.metax)
    (written : p.compact = false) :
    q.compact = false ∧ q.prefixLen = p.prefixLen ∧ q.prefixIdx = p.prefixIdx := by
  cases compact : q.compact with
  | true => simp [cell, keyMetaToKeyMetax, KeyMeta.type, keyMeta, written, compact] at same
  | false =>
    simp only [cell, keyMetaToKeyMetax, KeyMeta.type, keyMeta, written, compact,
      Bool.false_eq_true, if_false, KeyMetax.full.injEq] at same
    exact ⟨rfl, same.2.2.2.2.1, same.2.2.2.1⟩

/-- If the new entries do not all refer to the first, the right leaf cannot be
read back. -/
theorem not_wellPlaced_of_reference (placed : WellPlaced cfg ps)
    (split : ps = (done ++ [p]) ++ rest) (fits : spaceOf ps ≤ cfg.nodesizeLessHdr)
    (refers : ¬ RefersToFirst (recode opt 0 none rest)) {rs : List Placed}
    (right : WellPlaced cfg rs)
    (same : render ((splitRight opt rest).map (Placed.adjust 0 (-(done.length + 1)))) = render rs) :
    False := by
  obtain ⟨before, b, q, after, run, later, bare, writtenBase, shares, index, written⟩ :=
    exists_reference (recode_wellPlaced opt placed split).linked refers
  have area : areaOf rs = areaOf (before.map (Placed.adjust 0 (-(done.length + 1)))) ++
      areaOf (b :: q.adjust 0 (-(done.length + 1)) ::
        (after ++ rest.drop (recode opt 0 none rest).length).map
          (Placed.adjust 0 (-(done.length + 1)))) := by
    have areas := congrArg LeafNode.area same
    rw [← areaOf_append]
    refine areas.symm.trans (congrArg areaOf ?_)
    rw [splitRight, run]
    simp [adjust_bare bare]
  -- the cells say what the entries of the right leaf are
  obtain ⟨early, late, rfl, earlyArea, lateArea⟩ := map_eq_append_iff.mp area
  obtain ⟨b', late, rfl, baseCell, lateArea⟩ := map_eq_cons_iff.mp lateArea
  obtain ⟨q', late, rfl, cell, -⟩ := map_eq_cons_iff.mp lateArea
  have count : early.length = before.length := by
    simpa [areaOf] using congrArg length earlyArea
  obtain ⟨-, base, -⟩ := metax_injective (congrArg Cell.metax baseCell) writtenBase
  obtain ⟨-, len, idx⟩ := metax_injective (congrArg Cell.metax cell) written
  obtain ⟨-, -, follows, -⟩ := linked_append.mp right.linked
  have share := follows.1.resolve_left fun bare => by
    rw [bare.1] at len
    exact shares.ne' len.symm
  have target : q'.prefixIdx = before.length := by
    rcases share.base with ⟨-, index⟩ | ⟨positive, -⟩
    · omega
    · exact absurd (base.trans bare) positive.ne'
  have shifted : (q.adjust 0 (-(done.length + 1))).prefixIdx =
      (((before.length : ℤ) + -(done.length + 1)) % 2 ^ 16).toNat := by
    have positive : 0 < before.length := length_pos_iff.mpr later
    simp only [adjust, index, shares, true_and]
    exact if_pos (by omega)
  have small := (small_of_fits fits).2
  simp only [split, length_append, length_singleton] at small
  omega

/-- What neighbours have in common, from a key on. -/
def parts (opt : SpaceOpt) : Data → List Placed → List ℕ
  | _, [] => []
  | key, p :: ps => getCommonPart opt key p.entry.key :: parts opt p.entry.key ps

/-- Of the entries that a split comes to, none has a front in common with the one before it once
another has none. -/
def Unbroken (opt : SpaceOpt) : List Placed → Prop
  | [] => True
  | p :: ps => (parts opt p.entry.key (affected opt (some p.entry.key) ps)).Pairwise
      fun part next => part = 0 → next = 0

instance (rest : List Placed) : Decidable (Unbroken opt rest) :=
  match rest with
  | [] => inferInstanceAs (Decidable True)
  | _ :: _ => inferInstanceAs (Decidable (List.Pairwise _ _))

/-- Behind a base that is not the first entry, a reference is one to that base. -/
theorem refersToFirst_behind {a : Placed} (late : 2 ≤ index) (base : a.prefixLen = 0) :
    RefersToFirst (recode opt index (some a) ps) ↔
      ∀ part ∈ parts opt a.entry.key (affected opt (some a.entry.key) ps), part = 0 := by
  induction ps generalizing index a with
  | nil => simp [recode, affected, parts, RefersToFirst]
  | cons p ps ih =>
    rcases recode_cons opt index (some a) p ps with ⟨none, stops⟩ | ⟨here, goes⟩
    · rw [Option.map_some] at none
      rw [none, stops]
      simp [parts, RefersToFirst]
    · rw [Option.map_some] at here
      rw [here, goes, parts, refersToFirst_cons, forall_mem_cons]
      by_cases part : getCommonPart opt a.entry.key p.entry.key = 0
      · have bare : (place opt index (some a) p.entry).Bare := place_bare opt part
        have rest := ih (Nat.le_succ_of_le late) bare.1
        rw [place_entry] at rest
        exact and_congr (iff_of_true bare.2 part) rest
      · refine iff_of_false (fun all => ?_) fun all => part all.1
        have reference := all.1
        rw [place_prefixIdx, if_neg part, if_neg (by omega)] at reference
        omega

/-- As long as the entries share a front, they refer to the first one. -/
theorem refersToFirst_from {a : Placed} (later : 0 < index) (first : a.prefixIdx = 0)
    (base : 0 < a.prefixLen ∨ index = 1) : RefersToFirst (recode opt index (some a) ps) ↔
      (parts opt a.entry.key (affected opt (some a.entry.key) ps)).Pairwise
        fun part next => part = 0 → next = 0 := by
  induction ps generalizing index a with
  | nil => simp [recode, affected, parts, RefersToFirst]
  | cons p ps ih =>
    rcases recode_cons opt index (some a) p ps with ⟨none, stops⟩ | ⟨here, goes⟩
    · rw [Option.map_some] at none
      rw [none, stops]
      simp [parts, RefersToFirst]
    · rw [Option.map_some] at here
      rw [here, goes, parts, refersToFirst_cons, pairwise_cons]
      by_cases part : getCommonPart opt a.entry.key p.entry.key = 0
      · have bare : (place opt index (some a) p.entry).Bare := place_bare opt part
        have rest : RefersToFirst (recode opt (index + 1) _ ps) ↔ _ :=
          refersToFirst_behind opt (Nat.succ_le_succ later) bare.1
        rw [place_entry] at rest
        rw [rest, and_iff_right bare.2]
        refine ⟨fun zero => ⟨fun next mem _ => zero next mem, ?_⟩, fun all next mem => all.1 next mem part⟩
        exact pairwise_of_forall_mem_list fun _ _ next mem _ => zero next mem
      · have shares : 0 < (place opt index (some a) p.entry).prefixLen := by
          rw [place_prefixLen]
          split_ifs <;> omega
        have reference : (place opt index (some a) p.entry).prefixIdx = 0 := by
          rw [place_prefixIdx, if_neg part]
          split_ifs with shared
          · exact first
          · rw [base.resolve_left shared]
        have rest := ih index.succ_pos reference (.inl shares)
        rw [place_entry] at rest
        exact and_congr (iff_of_true reference fun _ _ zero => absurd zero part) rest

/-- All prefixes of the run come from its first entry if it is unbroken. -/
theorem refersToFirst_iff (rest : List Placed) :
    RefersToFirst (recode opt 0 none rest) ↔ Unbroken opt rest := by
  cases rest with
  | nil => simp [recode, Unbroken, RefersToFirst]
  | cons p ps =>
    have first : (place opt 0 none p.entry).prefixIdx = 0 := rfl
    exact (refersToFirst_cons.trans (and_iff_right first)).trans
      (refersToFirst_from opt one_pos first (.inr rfl))

/-- The entries grow by no more than those of the left leaf had and was free. -/
def SplitFits (cfg : LeafConfig) (opt : SpaceOpt) (left rest : List Placed) : Prop :=
  growth opt none (affected opt none rest) ≤
    (spaceOf left + (cfg.nodesizeLessHdr - spaceOf (left ++ rest)) : ℕ)

instance (left rest : List Placed) : Decidable (SplitFits cfg opt left rest) :=
  inferInstanceAs (Decidable (_ ≤ _))

/-- The right part fits if the growth does. -/
theorem splitRight_fits_iff {left : List Placed} (placed : WellPlaced cfg (left ++ rest))
    (fits : spaceOf (left ++ rest) ≤ cfg.nodesizeLessHdr) :
    spaceOf (splitRight opt rest) ≤ cfg.nodesizeLessHdr ↔ SplitFits cfg opt left rest := by
  have fronts : ∀ q ∈ rest, q.prefixLen ≤ q.entry.key.length := fun q mem =>
    placed.linked.prefixLen_le q (mem_append_right _ mem)
  obtain ⟨-, space⟩ := spaceOf_recode opt 0 none fronts
  have parts : spaceOf rest = spaceOf (rest.take (recode opt 0 none rest).length) +
      spaceOf (rest.drop (recode opt 0 none rest).length) := by
    rw [← spaceOf_append, take_append_drop]
  rw [SplitFits, splitRight, spaceOf_append]
  rw [spaceOf_append] at fits ⊢
  simp only [Option.map_none] at space
  omega

/-- What a split is to leave: two leaves that hold the entries of the old one, and
the last entry of the left one as separator. -/
def SplitsInto (cfg : LeafConfig) (n left right : LeafNode) (key : Data) (seqno : ℕ) : Prop :=
  (∃ ls, WellFormed cfg left ls) ∧ (∃ rs, WellFormed cfg right rs) ∧
    ∃ ls rs, decode left = some ls ∧ decode right = some rs ∧ decode n = some (ls ++ rs) ∧
      ls.getLast?.map (fun last => (last.1.key, last.1.seqno)) = some (key, seqno)

end

/-- A leaf, written under any setting, is split as it should be exactly when no entry
shares a front behind one that shares none and the entries do not grow too much. -/
theorem split_iff {cfg : LeafConfig} (opt : SpaceOpt) {n : LeafNode} {ps : List Placed}
    (leaf : WellFormed cfg n ps) {middleIndex : ℕ} (admissible : middleIndex + 1 < ps.length) :
    (∃ left right key seqno,
        btreeLeafSplit opt cfg n middleIndex = some (left, right, key, seqno) ∧
          SplitsInto cfg n left right key seqno) ↔
      Unbroken opt (ps.drop (middleIndex + 1)) ∧
        SplitFits cfg opt (ps.take (middleIndex + 1)) (ps.drop (middleIndex + 1)) := by
  obtain ⟨done, p, rest, split, index, nonempty⟩ : ∃ done p rest,
      ps = (done ++ [p]) ++ rest ∧ done.length = middleIndex ∧ rest ≠ [] := by
    refine ⟨ps.take middleIndex, ps[middleIndex], ps.drop (middleIndex + 1), ?_, ?_, ?_⟩
    · rw [append_assoc, singleton_append, ← drop_eq_getElem_cons,
        take_append_drop]
    · exact length_take_of_le (by omega)
    · rw [ne_eq, drop_eq_nil_iff]
      omega
  have start : (done ++ [p]).length = middleIndex + 1 := by simp [index]
  have fits := leaf.fits
  have early : ps.take (middleIndex + 1) = done ++ [p] := by rw [split, take_left' start]
  have late : ps.drop (middleIndex + 1) = rest := by rw [split, drop_left' start]
  rw [early, late, ← splitRight_fits_iff opt (split ▸ leaf.placed) (split ▸ fits),
    ← refersToFirst_iff, leaf.rendered, ← index, btreeLeafSplit_eq opt leaf.placed split nonempty]
  constructor
  · rintro ⟨left, right, key, seqno, result, -, ⟨rs, right'⟩, -⟩
    split_ifs at result with small
    obtain ⟨-, rfl, -⟩ := Prod.mk.inj (some.inj result)
    refine ⟨?_, small⟩
    by_contra refers
    exact not_wellPlaced_of_reference opt leaf.placed split fits refers right'.placed
      right'.rendered
  · rintro ⟨refers, small⟩
    have leftPlaced : WellPlaced cfg (done ++ [p]) :=
      ⟨fun q mem => leaf.placed.sound q (split ▸ mem_append_left _ mem),
        done_linked leaf.placed split⟩
    have rightPlaced := splitRight_wellPlaced opt leaf.placed split fits refers
    have read : ((splitRight opt rest).map (Placed.adjust 0 (-(done.length + 1)))).map Placed.read =
        rest.map Placed.read :=
      map_read_congr (by rw [List.map_map]; exact splitRight_entries opt)
    refine ⟨_, _, _, _, if_pos small, ⟨_, leftPlaced, rfl, ?_⟩, ⟨_, rightPlaced, rfl, ?_⟩,
      _, _, leftPlaced.decode, rightPlaced.decode, ?_, ?_⟩
    · rw [split, spaceOf_append] at fits
      omega
    · rw [spaceOf_adjust]
      exact small
    · rw [leaf.placed.decode, read, ← map_append, split]
    · rw [map_append, map_singleton, getLast?_append]
      rfl

/-- Compression of fronts of at least twenty bytes. -/
def longerFronts : SpaceOpt := ⟨false, 20, by decide, by decide⟩

/-- Four keys with a common front of ten bytes, the last two of 21. -/
def mixedFronts : List (Entry Data) :=
  [zeros (front ++ [0]) 0, zeros (front ++ 1 :: replicate 11 0) 0,
    zeros (front ++ 2 :: replicate 10 0) 0, zeros (front ++ 2 :: replicate 10 0 ++ [7]) 0]

theorem mixedFronts_wellFormed {count : ℕ} (fits : spaceOf (encode shortestFronts
      (mixedFronts.take count)) ≤ defaultLeaves.nodesizeLessHdr) :
    WellFormed defaultLeaves (render (encode shortestFronts (mixedFronts.take count)))
      (encode shortestFronts (mixedFronts.take count)) := by
  refine ⟨encode_wellPlaced shortestFronts fun e mem => ?_, rfl, fits⟩
  have listed := mem_of_mem_take mem
  simp only [mixedFronts, mem_cons, not_mem_nil, or_false] at listed
  rcases listed with rfl | rfl | rfl | rfl <;> exact zeros_sound (by decide) (by decide)

/-- The first three are written with a minimum of ten and split, after the first, with a minimum of
twenty: the other two are written anew, without a front. -/
theorem split_mixedFronts :
    ∃ left right key seqno,
      btreeLeafSplit longerFronts defaultLeaves
          (render (encode shortestFronts (mixedFronts.take 3))) 0 = some (left, right, key, seqno) ∧
      SplitsInto defaultLeaves (render (encode shortestFronts (mixedFronts.take 3))) left right key
        seqno := by
  have leaf := mixedFronts_wellFormed (show spaceOf (encode shortestFronts (mixedFronts.take 3)) ≤ _ by
    decide +kernel)
  exact (split_iff longerFronts leaf (by decide)).mpr ⟨by decide +kernel, by decide +kernel⟩

/-- With all four, the last entry is written anew with a reference to the second one, which is then
shifted to the first: its key is read with the front of another. -/
theorem split_under_longer_fronts :
    WellFormed defaultLeaves (render (encode shortestFronts mixedFronts))
        (encode shortestFronts mixedFronts) ∧
      (mixedFronts.map Entry.key).Pairwise (· < ·) ∧
      ((btreeLeafSplit longerFronts defaultLeaves (render (encode shortestFronts mixedFronts)) 0).bind
        fun result => (decode result.2.1).map fun read => read.map fun entry => entry.1.key) =
        some [front ++ 1 :: replicate 11 0, front ++ 2 :: replicate 10 0,
          front ++ 1 :: replicate 10 0 ++ [7]] :=
  ⟨mixedFronts_wellFormed (show spaceOf (encode shortestFronts (mixedFronts.take 4)) ≤ _ by
    decide +kernel), by decide +kernel, by decide +kernel⟩

end Zetascale.VarLeaf
