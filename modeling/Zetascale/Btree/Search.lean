import Zetascale.Btree.Node

/-!
# Searching a node

`bsearch_key_low` of `btree/btree_raw.c` and what it calls. Both kinds of node
are searched through the keys and sequence numbers that `get_key_stuff_info2`
reads. The main result is that on a sorted node the search with `BSF_LATEST`
returns the first version at or after the place the filter asks for.
-/

namespace Zetascale.Btree

open List Pos

/-- What `get_key_stuff_info2` reads of a node's key. -/
structure KeyStuff (κ : Type) where
  key : κ
  seqno : ℕ

open KeyStuff

/-- The place of a key in the order of the tree. -/
def KeyStuff.pos {κ : Type} (ks : KeyStuff κ) : Pos κ := ⟨ks.key, WithTop.some ks.seqno⟩

@[simp] theorem KeyStuff.pos_key {κ : Type} (ks : KeyStuff κ) : ks.pos.key = ks.key := rfl

def Entry.stuff {κ : Type} (e : Entry κ) : KeyStuff κ := ⟨e.key, e.seqno⟩

def Sep.stuff {κ : Type} (s : Sep κ) : KeyStuff κ := ⟨s.key, s.seqno⟩

/-- The sequence numbers a search asks for, by the flags of its metadata. -/
inductive SeqFilter
  | any
  | eq (seqno : ℕ)
  | le (end_seqno : ℕ)
  | gtLe (start_seqno end_seqno : ℕ)

/-- The outcome of `seqno_cmp_range`. -/
inductive SeqCmp
  | exactMatch
  | rangeMatch
  | greater
  | less

/-- `seqno_cmp_range`. -/
def seqnoCmpRange : SeqFilter → ℕ → SeqCmp
  | .any, _ => .rangeMatch
  | .eq seqno, key_seqno =>
    if seqno = key_seqno then .exactMatch else if seqno < key_seqno then .greater else .less
  | .le end_seqno, key_seqno => if key_seqno ≤ end_seqno then .rangeMatch else .greater
  | .gtLe start_seqno end_seqno, key_seqno =>
    if start_seqno < key_seqno ∧ key_seqno ≤ end_seqno then .rangeMatch
    else if key_seqno ≤ start_seqno then .less else .greater

/-- Directions of the walk over the versions of a key. -/
inductive Dir
  | left
  | unknown
  | right
  deriving DecidableEq

/-- The flags of a search. -/
inductive BsearchFlag
  | matchAny
  | next
  | latest

section

variable {κ : Type} [LinearOrder κ] (keys : List (KeyStuff κ)) (key_in : κ)

/-- The loop of `get_latest_seqno`, with the version at `i_cur` still to be
looked at. -/
def getLatestSeqnoLoop (smeta : SeqFilter) : ℕ → ℕ → ℕ → Dir → Bool → ℕ × Bool
  | 0, _, i_ret, _, found => (i_ret, found)
  | fuel + 1, i_cur, i_ret, dir, found =>
    match keys[i_cur]? with
    | none => (i_ret, found)
    | some ks =>
      if ks.key ≠ key_in then (i_ret, found) else
      match seqnoCmpRange smeta ks.seqno with
      | .exactMatch => (i_cur, true)
      | .rangeMatch =>
        -- moving right, the first match is the latest
        if dir = .right then (i_ret, true)
        else if i_cur = 0 then (i_cur, true)
        else getLatestSeqnoLoop smeta fuel (i_cur - 1) i_cur .left true
      | .greater =>
        if dir = .left then (i_ret, found)
        else getLatestSeqnoLoop smeta fuel (i_cur + 1) (i_cur + 1) .right found
      | .less =>
        if dir = .right then (i_ret, found)
        else if i_cur = 0 then (i_cur, found)
        else getLatestSeqnoLoop smeta fuel (i_cur - 1) i_cur .left found

/-- `get_latest_seqno`. -/
def getLatestSeqno (smeta : SeqFilter) (i_cur : ℕ) : ℕ × Bool :=
  getLatestSeqnoLoop keys key_in smeta (keys.length + 1) i_cur i_cur .unknown false

/-- The first index from `i` on whose key is not `key_in`. -/
def skipKey : ℕ → ℕ → ℕ
  | 0, i => i
  | fuel + 1, i =>
    match keys[i]? with
    | none => i
    | some ks => if ks.key = key_in then skipKey fuel (i + 1) else i

/-- The loop of `bsearch_key_low`. The source's `i_start` is `start - 1`. -/
def bsearchKeyLoop (smeta : SeqFilter) (flag : BsearchFlag) : ℕ → ℕ → ℕ → ℕ × Bool
  | 0, _, i_end => (i_end, false)
  | fuel + 1, start, i_end =>
    if start < i_end then
      let i_check := start + (i_end - start + 1) / 2 - 1
      match keys[i_check]? with
      | none => (i_end, false)
      | some ks =>
        if key_in = ks.key then
          match flag with
          | .matchAny => (i_check, true)
          | .next => (skipKey keys key_in keys.length (i_check + 1), true)
          | .latest => getLatestSeqno keys key_in smeta i_check
        else if key_in < ks.key then bsearchKeyLoop smeta flag fuel start i_check
        else bsearchKeyLoop smeta flag fuel (i_check + 1) i_end
    else (i_end, false)

/-- `bsearch_key_low` over a whole node: an index and whether it was found. -/
def bsearchKeyLow (smeta : SeqFilter) (flag : BsearchFlag) : ℕ × Bool :=
  bsearchKeyLoop keys key_in smeta flag keys.length 0 keys.length

end

/-! ## What a filter asks for -/

/-- The place at which the search for a key looks. -/
def SeqFilter.place {κ : Type} (f : SeqFilter) (key : κ) : Pos κ :=
  match f with
  | .any => ⟨key, ⊤⟩
  | .eq seqno => ⟨key, WithTop.some seqno⟩
  | .le end_seqno => ⟨key, WithTop.some end_seqno⟩
  | .gtLe start_seqno end_seqno => ⟨key, WithTop.some (max start_seqno end_seqno)⟩

open SeqFilter

/-- Whether a version's sequence number is one the search asks for. -/
def SeqFilter.Passes : SeqFilter → ℕ → Prop
  | .any, _ => True
  | .eq seqno, s => s = seqno
  | .le end_seqno, s => s ≤ end_seqno
  | .gtLe start_seqno end_seqno, s => start_seqno < s ∧ s ≤ end_seqno

instance : (f : SeqFilter) → (s : ℕ) → Decidable (f.Passes s)
  | .any, _ => .isTrue trivial
  | .eq seqno, s => inferInstanceAs (Decidable (s = seqno))
  | .le end_seqno, s => inferInstanceAs (Decidable (s ≤ end_seqno))
  | .gtLe start_seqno end_seqno, s =>
    inferInstanceAs (Decidable (start_seqno < s ∧ s ≤ end_seqno))

/-- The filter of a reader: `READ_SEQNO_LE` at a sequence number, none for the
latest version. -/
def SeqFilter.reader : WithTop ℕ → SeqFilter
  | none => .any
  | some end_seqno => .le end_seqno

theorem SeqFilter.reader_place {κ : Type} (bound : WithTop ℕ) (key : κ) :
    (SeqFilter.reader bound).place key = ⟨key, bound⟩ := by
  cases bound <;> rfl

theorem SeqFilter.reader_passes (bound : WithTop ℕ) (s : ℕ) :
    (SeqFilter.reader bound).Passes s ↔ WithTop.some s ≤ bound := by
  cases bound with
  | top => exact ⟨fun _ => le_top, fun _ => trivial⟩
  | coe n => exact WithTop.coe_le_coe.symm

@[simp] theorem SeqFilter.place_key {κ : Type} (f : SeqFilter) (key : κ) :
    (f.place key).key = key := by
  cases f <;> rfl

variable {κ : Type} [LinearOrder κ] {keys : List (KeyStuff κ)} {key_in : κ} {smeta : SeqFilter}
  {found : Bool} {fuel : ℕ}

/-- What comparing a version of the key with the filter says about its place. -/
theorem seqnoCmpRange_spec (smeta : SeqFilter) {ks : KeyStuff κ} (same : ks.key = key_in) :
    match seqnoCmpRange smeta ks.seqno with
    | .exactMatch => ks.pos = smeta.place key_in ∧ smeta.Passes ks.seqno
    | .rangeMatch => smeta.place key_in ≤ ks.pos ∧ smeta.Passes ks.seqno
    | .greater => ks.pos < smeta.place key_in
    | .less => smeta.place key_in ≤ ks.pos ∧ ∀ s ≤ ks.seqno, ¬ smeta.Passes s := by
  subst same
  cases smeta with
  | any => simp [seqnoCmpRange, place, SeqFilter.Passes, pos, le_iff]
  | eq seqno =>
    simp only [seqnoCmpRange]
    split_ifs with equal less
    · simp [place, SeqFilter.Passes, pos, equal]
    · simpa [place, pos, lt_iff] using less
    · simp only [place, SeqFilter.Passes, pos, le_iff,
        WithTop.coe_le_coe, true_and]
      exact ⟨.inr (by omega), fun s le => by omega⟩
  | le end_seqno =>
    simp only [seqnoCmpRange]
    split_ifs with inRange
    · simpa [place, SeqFilter.Passes, pos, le_iff] using inRange
    · simpa [place, pos, lt_iff] using inRange
  | gtLe start_seqno end_seqno =>
    simp only [seqnoCmpRange]
    split_ifs with inRange below
    · simp only [place, SeqFilter.Passes, pos, le_iff,
        WithTop.coe_le_coe, true_and]
      exact ⟨.inr (by omega), inRange⟩
    · simp only [place, SeqFilter.Passes, pos, le_iff,
        WithTop.coe_le_coe, true_and]
      exact ⟨.inr (by omega), fun s le => by omega⟩
    · simp only [place, pos, lt_iff, WithTop.coe_lt_coe, true_and]
      exact .inr (by omega)

/-- The answer a search has to give: the first version at or after the filter's
place, found when it is a version of the key that passes the filter. -/
structure Locates (keys : List (KeyStuff κ)) (smeta : SeqFilter) (key_in : κ)
    (answer : ℕ × Bool) : Prop where
  index : cutIndex KeyStuff.pos keys (smeta.place key_in) = answer.1
  found : answer.2 = true ↔ ∃ ks, keys[answer.1]? = some ks ∧ ks.key = key_in ∧
    smeta.Passes ks.seqno

/-- Where the walk over the versions of the key stands. -/
inductive WalkAt (keys : List (KeyStuff κ)) (smeta : SeqFilter) (key_in : κ) :
    ℕ → ℕ → Dir → Bool → Prop
  | unknown {i : ℕ} (inside : i < keys.length) (same : keys[i].key = key_in) :
      WalkAt keys smeta key_in i i .unknown false
  | left {i : ℕ} {found : Bool} (inside : i + 1 < keys.length)
      (same : keys[i + 1].key = key_in) (after : smeta.place key_in ≤ keys[i + 1].pos)
      (found_iff : found = true ↔ smeta.Passes keys[i + 1].seqno) :
      WalkAt keys smeta key_in i (i + 1) .left found
  | right {i : ℕ} (inside : i < keys.length) (same : keys[i].key = key_in)
      (before : keys[i].pos < smeta.place key_in) :
      WalkAt keys smeta key_in (i + 1) (i + 1) .right false

/-- How many more versions the walk can look at. -/
def walkBound (keys : List (KeyStuff κ)) (i : ℕ) : Dir → ℕ
  | .left => i + 1
  | .unknown => keys.length
  | .right => keys.length - i

variable {i : ℕ}

section

variable (sorted : SortedBy KeyStuff.pos keys)

include sorted

/-- Neighbours of different keys: the first one lies before every place of the
second one's key. -/
theorem before_place_of_other (smeta : SeqFilter)
    (inside : i + 1 < keys.length) (same : keys[i + 1].key = key_in)
    (other : keys[i].key ≠ key_in) : keys[i].pos < smeta.place key_in := by
  have ascending : keys[i].pos < keys[i + 1].pos :=
    pairwise_iff_getElem.mp sorted i (i + 1) (by omega) inside (by omega)
  have keyLe : keys[i].key ≤ keys[i + 1].key := key_le_of_le ascending.le
  refine lt_of_key_lt ?_
  rw [place_key]
  exact lt_of_le_of_ne (same ▸ keyLe) other

/-- The walk stops on its left when the version there lies before the place. -/
theorem locates_left (inside : i < keys.length) (same : keys[i].key = key_in)
    (before : ∀ j, i = j + 1 → ∀ h : j < keys.length, keys[j].pos < smeta.place key_in)
    (after : smeta.place key_in ≤ keys[i].pos)
    (found_iff : found = true ↔ smeta.Passes keys[i].seqno) :
    Locates keys smeta key_in (i, found) := by
  constructor
  · exact sorted.cutIndex_eq inside.le before fun _ => after
  · rw [found_iff]
    simp [getElem?_eq_getElem inside, same]

/-- The walk stops on its right when no version is left or the next one is not
what the filter asks for. -/
theorem locates_right (inside : i < keys.length) (before : keys[i].pos < smeta.place key_in)
    (after : ∀ h : i + 1 < keys.length, smeta.place key_in ≤ keys[i + 1].pos)
    (notFound : ∀ h : i + 1 < keys.length, keys[i + 1].key = key_in →
      ¬ smeta.Passes keys[i + 1].seqno) : Locates keys smeta key_in (i + 1, false) := by
  constructor
  · apply sorted.cutIndex_eq inside _ after
    rintro j equal -
    obtain rfl : i = j := by omega
    exact before
  · constructor
    · intro impossible
      exact absurd impossible Bool.false_ne_true
    · rintro ⟨ks, there, same, passes⟩
      obtain ⟨within, rfl⟩ := List.getElem?_eq_some_iff.mp there
      exact absurd passes (notFound within same)

theorem locates_exact (inside : i < keys.length) (same : keys[i].key = key_in)
    (position : keys[i].pos = smeta.place key_in) (passes : smeta.Passes keys[i].seqno) :
    Locates keys smeta key_in (i, true) := by
  apply locates_left sorted inside same _ position.ge (by simp [passes])
  rintro j rfl h
  rw [← position]
  exact pairwise_iff_getElem.mp sorted j (j + 1) h inside (Nat.lt_succ_self j)

theorem locates_stepLeft
    (rest : ∀ {j}, WalkAt keys smeta key_in j (j + 1) .left found → j + 1 < fuel →
      Locates keys smeta key_in (getLatestSeqnoLoop keys key_in smeta fuel j (j + 1) .left found))
    (enough : i < fuel) (inside : i < keys.length) (same : keys[i].key = key_in)
    (after : smeta.place key_in ≤ keys[i].pos)
    (found_iff : found = true ↔ smeta.Passes keys[i].seqno) :
    Locates keys smeta key_in (if i = 0 then (i, found)
      else getLatestSeqnoLoop keys key_in smeta fuel (i - 1) i .left found) := by
  cases i with
  | zero =>
    exact locates_left sorted inside same (by simp) after found_iff
  | succ j =>
    exact rest (.left inside same after found_iff) enough

end

/-- The walk stops at the end of the node and at another key. -/
theorem getLatestSeqnoLoop_of_other {i_cur i_ret : ℕ} {dir : Dir}
    (other : ∀ h : i_cur < keys.length, keys[i_cur].key ≠ key_in) :
    getLatestSeqnoLoop keys key_in smeta (fuel + 1) i_cur i_ret dir found = (i_ret, found) := by
  unfold getLatestSeqnoLoop
  rcases lt_or_ge i_cur keys.length with inside | outside
  · simp [getElem?_eq_getElem inside, other inside]
  · simp [getElem?_eq_none outside]

variable (sorted : SortedBy KeyStuff.pos keys) (smeta : SeqFilter)

include sorted

theorem getLatestSeqnoLoop_locates
    {i_cur i_ret : ℕ} {dir : Dir} (walk : WalkAt keys smeta key_in i_cur i_ret dir found)
    (enough : walkBound keys i_cur dir < fuel) : Locates keys smeta key_in
      (getLatestSeqnoLoop keys key_in smeta fuel i_cur i_ret dir found) := by
  induction fuel generalizing i_cur i_ret dir found with
  | zero => cases enough
  | succ fuel ih =>
    cases walk with
    | unknown inside same =>
      have spec := seqnoCmpRange_spec smeta same
      have bound : keys.length ≤ fuel := Nat.le_of_lt_succ enough
      have less : i_cur < fuel := inside.trans_le bound
      unfold getLatestSeqnoLoop
      simp only [getElem?_eq_getElem inside, same, ne_eq, not_true_eq_false, if_false]
      cases outcome : seqnoCmpRange smeta keys[i_cur].seqno <;>
        simp only [outcome, reduceCtorEq, if_false] at spec ⊢
      case exactMatch => exact locates_exact sorted inside same spec.1 spec.2
      case rangeMatch =>
        exact locates_stepLeft sorted ih less inside same spec.1 (by simp [spec.2])
      case greater => exact ih (.right inside same spec) (by simp only [walkBound]; omega)
      case less =>
        exact locates_stepLeft sorted ih less inside same spec.1 (by simp [spec.2 _ le_rfl])
    | left inside same after found_iff =>
      have within : i_cur < keys.length := Nat.lt_of_succ_lt inside
      have ascending : keys[i_cur].pos < keys[i_cur + 1].pos :=
        pairwise_iff_getElem.mp sorted i_cur (i_cur + 1) within inside (by omega)
      have stop : keys[i_cur].pos < smeta.place key_in →
          Locates keys smeta key_in (i_cur + 1, found) := by
        intro before
        apply locates_left sorted inside same _ after found_iff
        rintro j equal -
        obtain rfl : i_cur = j := by omega
        exact before
      by_cases other : keys[i_cur].key = key_in
      case neg =>
        rw [getLatestSeqnoLoop_of_other fun _ => other]
        exact stop (before_place_of_other sorted smeta inside same other)
      have spec := seqnoCmpRange_spec smeta other
      have less : i_cur < fuel := Nat.lt_of_succ_lt_succ enough
      unfold getLatestSeqnoLoop
      simp only [getElem?_eq_getElem within, other, ne_eq, not_true_eq_false, if_false]
      cases outcome : seqnoCmpRange smeta keys[i_cur].seqno <;>
        simp only [outcome, reduceCtorEq, if_false, if_true] at spec ⊢
      case exactMatch => exact locates_exact sorted within other spec.1 spec.2
      case rangeMatch =>
        exact locates_stepLeft sorted ih less within other spec.1 (by simp [spec.2])
      case greater => exact stop spec
      case less =>
        have older : keys[i_cur + 1].seqno ≤ keys[i_cur].seqno :=
          WithTop.coe_le_coe.mp (version_le_of_le ascending.le (other.trans same.symm))
        have unseen : found = false := by
          rw [← Bool.not_eq_true, found_iff]
          exact spec.2 _ older
        exact locates_stepLeft sorted ih less within other spec.1
          (by simp [unseen, spec.2 _ le_rfl])
    | @right i inside same before =>
      have stop : (∀ h : i + 1 < keys.length, smeta.place key_in ≤ keys[i + 1].pos) →
          (∀ h : i + 1 < keys.length, keys[i + 1].key = key_in → ¬ smeta.Passes keys[i + 1].seqno) →
          Locates keys smeta key_in (i + 1, false) := locates_right sorted inside before
      by_cases other : ∀ h : i + 1 < keys.length, keys[i + 1].key ≠ key_in
      case pos =>
        rw [getLatestSeqnoLoop_of_other other]
        apply stop _ fun h equal => absurd equal (other h)
        intro h
        have ascending : keys[i].pos < keys[i + 1].pos :=
          pairwise_iff_getElem.mp sorted i (i + 1) inside h (by omega)
        have keyLe : key_in ≤ keys[i + 1].key := same ▸ key_le_of_le ascending.le
        apply le_of_lt
        apply lt_of_key_lt
        rw [place_key]
        exact lt_of_le_of_ne keyLe (other h).symm
      simp only [not_forall, ne_eq, not_not] at other
      obtain ⟨within, equal⟩ := other
      have spec := seqnoCmpRange_spec smeta equal
      unfold getLatestSeqnoLoop
      simp only [getElem?_eq_getElem within, equal, ne_eq, not_true_eq_false, if_false]
      cases outcome : seqnoCmpRange smeta keys[i + 1].seqno <;>
        simp only [outcome, reduceCtorEq, if_false, if_true] at spec ⊢
      case exactMatch => exact locates_exact sorted within equal spec.1 spec.2
      case rangeMatch =>
        apply locates_left sorted within equal _ spec.1 (by simp [spec.2])
        rintro j succ -
        obtain rfl : i = j := by omega
        exact before
      case greater =>
        exact ih (.right within equal spec) (by simp only [walkBound] at enough ⊢; omega)
      case less => exact stop (fun _ => spec.1) fun _ _ => spec.2 _ le_rfl

theorem locates_between (inside : i ≤ keys.length)
    (smaller : ∀ j, i = j + 1 → ∀ h : j < keys.length, keys[j].key < key_in)
    (larger : ∀ h : i < keys.length, key_in < keys[i].key) :
    Locates keys smeta key_in (i, false) := by
  constructor
  · apply sorted.cutIndex_eq inside
    · intro j equal h
      exact lt_of_key_lt (by simpa using smaller j equal h)
    · intro h
      exact (lt_of_key_lt (by simpa using larger h)).le
  · simp only [Bool.false_eq_true, false_iff, not_exists, not_and]
    intro ks there same
    obtain ⟨h, rfl⟩ := List.getElem?_eq_some_iff.mp there
    exact absurd same (larger h).ne'

theorem bsearchKeyLoop_locates
    {start i_end : ℕ} (enough : i_end - start ≤ fuel) (ordered : start ≤ i_end)
    (inside : i_end ≤ keys.length)
    (smaller : ∀ j, start = j + 1 → ∀ h : j < keys.length, keys[j].key < key_in)
    (larger : ∀ h : i_end < keys.length, key_in < keys[i_end].key) :
    Locates keys smeta key_in (bsearchKeyLoop keys key_in smeta .latest fuel start i_end) := by
  induction fuel generalizing start i_end with
  | zero =>
    obtain rfl : start = i_end := by omega
    exact locates_between sorted smeta inside smaller larger
  | succ fuel ih =>
    unfold bsearchKeyLoop
    split_ifs with more
    case neg =>
      obtain rfl : start = i_end := by omega
      exact locates_between sorted smeta inside smaller larger
    have checkInside : start + (i_end - start + 1) / 2 - 1 < keys.length := by omega
    simp only [getElem?_eq_getElem checkInside]
    split_ifs with same below
    · exact getLatestSeqnoLoop_locates sorted smeta (.unknown checkInside same.symm)
        (Nat.lt_succ_self _)
    · exact ih (by omega) (by omega) checkInside.le smaller fun _ => below
    · apply ih (by omega) (by omega) inside _ larger
      intro j equal h
      obtain rfl : start + (i_end - start + 1) / 2 - 1 = j := by omega
      exact lt_of_le_of_ne (not_lt.mp below) (Ne.symm same)

/-- The search with `BSF_LATEST` on a sorted node. -/
theorem bsearchKeyLow_locates
    (key_in : κ) : Locates keys smeta key_in (bsearchKeyLow keys key_in smeta .latest) :=
  bsearchKeyLoop_locates sorted smeta le_rfl (Nat.zero_le _) le_rfl
    nofun
    (fun impossible => absurd impossible (lt_irrefl _))

end Zetascale.Btree
