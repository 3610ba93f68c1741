import Zetascale.Btree.Shape

/-!
# What the search of a node finds

`bsearch_key_low` in its three modes and the child that `bsearch_key` and
`find_key_non_leaf` follow, against the versions that the filter admits. The
search itself is right on every sorted node. A non-leaf, however, is searched
by its separators, and a separator may outlive the version it was made from:
the child that is chosen is the one of the newest version the filter admits,
stored or not.
-/

namespace Zetascale.Btree

open List SeqFilter KeyStuff Pos

/-- `i` is the index of the first element with a property, or the length if no
element has it. -/
structure FirstAt {α : Type*} (p : α → Prop) (l : List α) (i : ℕ) : Prop where
  inside : i ≤ l.length
  before : ∀ (j : ℕ) (h : j < l.length), j < i → ¬ p l[j]
  here : ∀ h : i < l.length, p l[i]

variable {κ : Type}

/-- The keys of a node, as searches read them. -/
def Node.stuff : Node κ → List (KeyStuff κ)
  | .leaf _ entries => entries.map Entry.stuff
  | .nonleaf _ _ keys _ => keys.map Sep.stuff

/-- The version is one of the key that the filter admits. -/
def SeqFilter.Admits (smeta : SeqFilter) (key : κ) (ks : KeyStuff κ) : Prop :=
  ks.key = key ∧ smeta.Passes ks.seqno

/-- The newest admitted version among those under the first `count + 1` children. -/
structure Newest (below : ℕ → List (KeyStuff κ)) (count : ℕ) (smeta : SeqFilter) (key : κ)
    (v : KeyStuff κ) : Prop where
  admitted : smeta.Admits key v
  latest : ∀ i ≤ count, ∀ w ∈ below i, smeta.Admits key w → w.seqno ≤ v.seqno

variable [LinearOrder κ]

/-- The separator invariant: what is stored under a child lies after the
separator on its left, and not after the one on its right. -/
def Separated (keys : List (KeyStuff κ)) (below : ℕ → List (KeyStuff κ)) : Prop :=
  ∀ i ≤ keys.length, ∀ v ∈ below i, (∀ (j : ℕ) (h : j < keys.length), j < i → keys[j].pos < v.pos) ∧
    ∀ h : i < keys.length, v.pos ≤ keys[i].pos

/-- The place sorts after every version that the filter admits. -/
def SeqFilter.Passed (smeta : SeqFilter) (key : κ) (ks : KeyStuff κ) : Prop :=
  ∀ s, smeta.Passes s → (⟨key, WithTop.some s⟩ : Pos κ) < ks.pos

/-- The child under which the newest admitted version is stored is followed. -/
def Node.ChoosesChild (isRoot : Bool) (below : ℕ → List (KeyStuff κ)) (key : κ)
    (smeta : SeqFilter) : Node κ → Prop
  | .leaf .. => True
  | .nonleaf _ _ keys _ => ∀ i ≤ keys.length, ∀ v ∈ below i, Newest below keys.length smeta key v →
      (bsearchKeyLow (keys.map Sep.stuff) key smeta .latest).1 = i ∧
        findKeyNonLeaf keys isRoot key smeta = some i

/-- The searches of a node give what they are meant to. -/
structure Node.Searches (n : Node κ) (isRoot : Bool) (below : ℕ → List (KeyStuff κ)) (key : κ)
    (smeta : SeqFilter) : Prop where
  found : (bsearchKeyLow n.stuff key smeta .latest).2 = true ↔
    ∃ ks ∈ n.stuff, smeta.Admits key ks
  latest : (bsearchKeyLow n.stuff key smeta .latest).2 = true →
    ∃ ks, n.stuff[(bsearchKeyLow n.stuff key smeta .latest).1]? = some ks ∧ smeta.Admits key ks ∧
      ∀ other ∈ n.stuff, smeta.Admits key other → other.seqno ≤ ks.seqno
  absent : (bsearchKeyLow n.stuff key smeta .latest).2 = false →
    FirstAt (smeta.Passed key) n.stuff (bsearchKeyLow n.stuff key smeta .latest).1
  next : FirstAt (fun ks => key < ks.key) n.stuff (bsearchKeyLow n.stuff key smeta .next).1
  /-- The search that takes the key itself too is the one without a filter. -/
  inclusive : FirstAt (fun ks => key ≤ ks.key) n.stuff (bsearchKeyLow n.stuff key .any .latest).1
  child : n.ChoosesChild isRoot below key smeta

/-- No separator is a newer version that the filter admits than those stored. -/
def Node.Current (isRoot : Bool) (below : ℕ → List (KeyStuff κ)) (key : κ) (smeta : SeqFilter) :
    Node κ → Prop
  | .leaf .. => True
  | .nonleaf _ _ keys _ => ∀ i ≤ keys.length, ∀ v ∈ below i, Newest below keys.length smeta key v →
      (keys ≠ [] ∨ isRoot = true) ∧
        ∀ ks ∈ keys.map Sep.stuff, smeta.Admits key ks → ks.seqno ≤ v.seqno

/-! ## Filters and places -/

variable {smeta : SeqFilter} {key : κ}

section

variable {ks v : KeyStuff κ}

theorem SeqFilter.Admits.place_le (admitted : smeta.Admits key ks) : smeta.place key ≤ ks.pos := by
  obtain ⟨rfl, passes⟩ := admitted
  refine le_iff.mpr (.inr ⟨smeta.place_key _, ?_⟩)
  cases smeta with
  | any => exact le_top
  | eq seqno => exact WithTop.coe_le_coe.mpr (le_of_eq passes)
  | le end_seqno => exact WithTop.coe_le_coe.mpr passes
  | gtLe start_seqno end_seqno => exact WithTop.coe_le_coe.mpr (passes.2.trans (le_max_right _ _))

/-- Between the place of the filter and an admitted version there are only
admitted versions. -/
theorem SeqFilter.Admits.between (admitted : smeta.Admits key v) (starts : smeta.place key ≤ ks.pos)
    (upto : ks.pos ≤ v.pos) : smeta.Admits key ks ∧ v.seqno ≤ ks.seqno := by
  obtain ⟨rfl, passes⟩ := admitted
  have low : v.key ≤ ks.key := by
    simpa only [smeta.place_key, pos_key] using key_le_of_le starts
  have same : ks.key = v.key := le_antisymm (key_le_of_le upto) low
  have newer : v.seqno ≤ ks.seqno := WithTop.coe_le_coe.mp (version_le_of_le upto same)
  have older : WithTop.some ks.seqno ≤ (smeta.place v.key).version :=
    version_le_of_le starts ((smeta.place_key _).trans same.symm)
  refine ⟨⟨same, ?_⟩, newer⟩
  cases smeta with
  | any => trivial
  | eq seqno => exact le_antisymm (WithTop.coe_le_coe.mp older) (passes.symm.le.trans newer)
  | le end_seqno => exact WithTop.coe_le_coe.mp older
  | gtLe start_seqno end_seqno =>
    have bound : ks.seqno ≤ max start_seqno end_seqno := WithTop.coe_le_coe.mp older
    obtain ⟨above, below⟩ := passes
    exact ⟨by omega, by omega⟩

/-- A version before the place of a filter that admits anything has an admitted
one after it. -/
theorem SeqFilter.not_passed_of_lt (passing : ∃ s, smeta.Passes s) (before : ks.pos < smeta.place key) :
    ¬ smeta.Passed key ks := by
  intro passed
  cases smeta with
  | any => exact absurd (passed 0 trivial) (not_lt.mpr (lt_of_key_lt (lt_top_iff.mp before)).le)
  | eq seqno => exact absurd (passed seqno rfl) (not_lt.mpr before.le)
  | le end_seqno => exact absurd (passed end_seqno le_rfl) (not_lt.mpr before.le)
  | gtLe start_seqno end_seqno =>
    obtain ⟨s, above, below⟩ := passing
    have larger : max start_seqno end_seqno = end_seqno := by omega
    refine absurd (passed end_seqno ⟨by omega, le_rfl⟩) (not_lt.mpr ?_)
    simpa only [place, larger] using before.le

theorem SeqFilter.passed_of_le (after : smeta.place key ≤ ks.pos)
    (other : ¬ smeta.Admits key ks) : smeta.Passed key ks := by
  intro s passes
  by_contra notAfter
  have admitted : smeta.Admits key ⟨key, s⟩ := ⟨rfl, passes⟩
  exact other (admitted.between after (not_lt.mp notAfter)).1

end

/-! ## Latest -/

variable {keys : List (KeyStuff κ)}

section

variable (sorted : SortedBy pos keys)

include sorted

/-- Places of a sorted node ascend. -/
theorem pos_le_pos {i j : ℕ} (hi : i < keys.length) (hj : j < keys.length) (le : i ≤ j) :
    keys[i].pos ≤ keys[j].pos := by
  rcases le.eq_or_lt with rfl | less
  · exact le_refl _
  · exact (pairwise_iff_getElem.mp sorted i j hi hj less).le

theorem SeqFilter.Admits.cutIndex_le {i : ℕ} {h : i < keys.length}
    (admitted : smeta.Admits key keys[i]) : cutIndex pos keys (smeta.place key) ≤ i := by
  by_contra less
  exact absurd admitted.place_le (not_le.mpr (sorted.lt_of_lt_cutIndex (not_le.mp less) h))

section

variable {answer : ℕ × Bool} (located : Locates keys smeta key answer)

include located

theorem Locates.admits_iff : answer.2 = true ↔ ∃ ks ∈ keys, smeta.Admits key ks := by
  rw [located.found]
  constructor
  · rintro ⟨ks, there, admitted⟩
    exact ⟨ks, mem_of_getElem? there, admitted⟩
  · rintro ⟨ks, mem, admitted⟩
    obtain ⟨i, inside, rfl⟩ := getElem_of_mem mem
    have cut : answer.1 ≤ i := located.index ▸ admitted.cutIndex_le sorted
    have within : answer.1 < keys.length := by omega
    refine ⟨keys[answer.1], getElem?_eq_getElem within, ?_⟩
    exact (admitted.between (sorted.le_of_cutIndex_le located.index.le within)
      (pos_le_pos sorted within inside cut)).1

theorem Locates.newest (found : answer.2 = true) :
    ∃ ks, keys[answer.1]? = some ks ∧ smeta.Admits key ks ∧
      ∀ other ∈ keys, smeta.Admits key other → other.seqno ≤ ks.seqno := by
  obtain ⟨ks, there, same, passes⟩ := located.found.mp found
  have admitted : smeta.Admits key ks := ⟨same, passes⟩
  refine ⟨ks, there, admitted, fun other mem admitted' => ?_⟩
  obtain ⟨within, rfl⟩ := List.getElem?_eq_some_iff.mp there
  obtain ⟨i, inside, rfl⟩ := getElem_of_mem mem
  have cut : answer.1 ≤ i := located.index ▸ admitted'.cutIndex_le sorted
  exact (admitted'.between admitted.place_le (pos_le_pos sorted within inside cut)).2

theorem Locates.absent_iff : (answer.2 = false → FirstAt (smeta.Passed key) keys answer.1) ↔
      (∃ s, smeta.Passes s) ∨ ∀ ks ∈ keys, smeta.place key ≤ ks.pos := by
  constructor
  · intro first
    by_cases passing : ∃ s, smeta.Passes s
    · exact .inl passing
    · -- every entry is after no version at all, so the first one has to be at index 0
      refine .inr fun ks mem => ?_
      have unfound : answer.2 = false := by
        rw [← Bool.not_eq_true, located.found]
        rintro ⟨ks, -, -, passes⟩
        exact passing ⟨_, passes⟩
      obtain ⟨i, inside, rfl⟩ := getElem_of_mem mem
      refine sorted.le_of_cutIndex_le ?_ inside
      rw [located.index]
      by_contra less
      exact (first unfound).before i inside (not_le.mp less) fun s passes => absurd ⟨s, passes⟩ passing
  · intro admits unfound
    have other : ∀ h : answer.1 < keys.length, ¬ smeta.Admits key keys[answer.1] := by
      intro h admitted
      have found := located.found.mpr ⟨_, getElem?_eq_getElem h, admitted⟩
      cases unfound.symm.trans found
    refine ⟨located.index ▸ cutIndex_le_length keys _, fun j h less => ?_, fun h => ?_⟩
    · rw [← located.index] at less
      have before := sorted.lt_of_lt_cutIndex less h
      rcases admits with passing | all
      · exact not_passed_of_lt passing before
      · exact absurd (all _ (getElem_mem h)) (not_le.mpr before)
    · exact passed_of_le (sorted.le_of_cutIndex_le located.index.le h) (other h)

end

theorem inclusive_first :
    FirstAt (fun ks => key ≤ ks.key) keys (bsearchKeyLow keys key .any .latest).1 := by
  have located := bsearchKeyLow_locates sorted .any key
  refine ⟨located.index ▸ cutIndex_le_length keys _, fun j h less => ?_, fun h => ?_⟩
  · rw [← located.index] at less
    exact not_le.mpr (lt_top_iff.mp (sorted.lt_of_lt_cutIndex less h))
  · exact top_le_iff.mp (sorted.le_of_cutIndex_le located.index.le h)

end

/-! ## Next -/

theorem skipKey_first {fuel i : ℕ} (enough : keys.length - i ≤ fuel) (inside : i ≤ keys.length)
    (upto : ∀ (j : ℕ) (h : j < keys.length), j < i → keys[j].key ≤ key)
    (starts : ∀ (j : ℕ) (h : j < keys.length), i ≤ j → key ≤ keys[j].key) :
    FirstAt (fun ks => key < ks.key) keys (skipKey keys key fuel i) := by
  have stop : (∀ h : i < keys.length, keys[i].key ≠ key) →
      FirstAt (fun ks => key < ks.key) keys i := fun other =>
    ⟨inside, fun j h less => not_lt.mpr (upto j h less),
      fun h => lt_of_le_of_ne (starts i h le_rfl) (other h).symm⟩
  induction fuel generalizing i with
  | zero => exact stop fun h => by omega
  | succ fuel ih =>
    unfold skipKey
    rcases lt_or_ge i keys.length with within | outside
    · simp only [getElem?_eq_getElem within]
      split_ifs with same
      · have upto' : ∀ (j : ℕ) (h : j < keys.length), j < i + 1 → keys[j].key ≤ key := by
          intro j h less
          rcases Nat.lt_succ_iff_lt_or_eq.mp less with before | rfl
          · exact upto j h before
          · exact same.le
        have from' : ∀ (j : ℕ) (h : j < keys.length), i + 1 ≤ j → key ≤ keys[j].key :=
          fun j h le => starts j h (by omega)
        exact ih (by omega) within upto' from' fun other =>
          ⟨within, fun j h less => not_lt.mpr (upto' j h less),
            fun h => lt_of_le_of_ne (from' _ h le_rfl) (other h).symm⟩
      · exact stop fun _ => same
    · simp only [getElem?_eq_none outside]
      exact stop fun h => by omega

theorem bsearchKeyLoop_next (sorted : SortedBy pos keys) (smeta : SeqFilter)
    {fuel start i_end : ℕ} (enough : i_end - start ≤ fuel) (ordered : start ≤ i_end)
    (inside : i_end ≤ keys.length)
    (smaller : ∀ (j : ℕ) (h : j < keys.length), j < start → keys[j].key ≤ key)
    (larger : ∀ h : i_end < keys.length, key < keys[i_end].key) :
    FirstAt (fun ks => key < ks.key) keys
      (bsearchKeyLoop keys key smeta .next fuel start i_end).1 := by
  have stop : start = i_end → FirstAt (fun ks => key < ks.key) keys i_end := fun same =>
    ⟨inside, fun j h less => not_lt.mpr (smaller j h (same ▸ less)), larger⟩
  induction fuel generalizing start i_end with
  | zero => exact stop (by omega)
  | succ fuel ih =>
    unfold bsearchKeyLoop
    split_ifs with more
    case neg => exact stop (by omega)
    have checkInside : start + (i_end - start + 1) / 2 - 1 < keys.length := by omega
    simp only [getElem?_eq_getElem checkInside]
    generalize middle : start + (i_end - start + 1) / 2 - 1 = i_check at checkInside ⊢
    have below : ∀ (j : ℕ) (h : j < keys.length), j < i_check + 1 →
        keys[j].key ≤ keys[i_check].key := fun j h less =>
      key_le_of_le (pos_le_pos sorted h checkInside (by omega))
    split_ifs with same less
    · refine skipKey_first (by omega) checkInside (fun j h less => ?_) fun j h le => ?_
      · rw [same]
        exact below j h less
      · rw [same]
        exact key_le_of_le (pos_le_pos sorted checkInside h (by omega))
    · exact ih (by omega) (by omega) checkInside.le smaller (fun _ => less) fun equal =>
        ⟨checkInside.le, fun j h less' => not_lt.mpr (smaller j h (equal ▸ less')), fun _ => less⟩
    · have greater : keys[i_check].key < key := lt_of_le_of_ne (not_lt.mp less) (Ne.symm same)
      have smaller' : ∀ (j : ℕ) (h : j < keys.length), j < i_check + 1 → keys[j].key ≤ key :=
        fun j h less' => (below j h less').trans greater.le
      exact ih (by omega) (by omega) inside smaller' larger fun equal =>
        ⟨inside, fun j h less' => not_lt.mpr (smaller' j h (equal ▸ less')), larger⟩

theorem next_first (sorted : SortedBy pos keys) (smeta : SeqFilter) :
    FirstAt (fun ks => key < ks.key) keys (bsearchKeyLow keys key smeta .next).1 :=
  bsearchKeyLoop_next sorted smeta le_rfl (Nat.zero_le _) le_rfl
    nofun
    (fun impossible => absurd impossible (lt_irrefl _))

/-! ## The child -/

section

variable {below : ℕ → List (KeyStuff κ)}

/-- The place of the filter leads to the child of an admitted version exactly
when no separator is a newer admitted version. -/
theorem cutIndex_eq_iff (sorted : SortedBy pos keys) (separated : Separated keys below)
    {i : ℕ} (inside : i ≤ keys.length) {v : KeyStuff κ} (stored : v ∈ below i)
    (admitted : smeta.Admits key v) : cutIndex pos keys (smeta.place key) = i ↔
      ∀ ks ∈ keys, smeta.Admits key ks → ks.seqno ≤ v.seqno := by
  obtain ⟨after, upto⟩ := separated i inside v stored
  constructor
  · rintro cut ks mem admitted'
    obtain ⟨j, h, rfl⟩ := getElem_of_mem mem
    have le : i ≤ j := cut ▸ admitted'.cutIndex_le sorted
    exact (admitted'.between admitted.place_le
      ((upto (by omega)).trans (pos_le_pos sorted _ h le))).2
  · intro current
    refine sorted.cutIndex_eq inside (fun j equal h => ?_) fun h => admitted.place_le.trans (upto h)
    by_contra notBefore
    have before := after j h (by omega)
    obtain ⟨admitted', newer⟩ := admitted.between (not_lt.mp notBefore) before.le
    have same : keys[j].seqno = v.seqno :=
      le_antisymm (current _ (getElem_mem h) admitted') newer
    refine absurd before (not_lt.mpr (le_of_eq ?_))
    simp [pos, same, admitted.1, admitted'.1]

theorem choosesChild_iff {n : Node κ} (sorted : SortedBy pos n.stuff)
    (separated : Separated n.stuff below) (isRoot : Bool) :
    n.ChoosesChild isRoot below key smeta ↔ n.Current isRoot below key smeta := by
  cases n with
  | leaf next entries => exact Iff.rfl
  | nonleaf level next keys rightmost =>
    simp only [Node.stuff] at sorted separated
    refine forall_congr' fun i => forall_congr' fun inside => forall_congr' fun v =>
      forall_congr' fun stored => forall_congr' fun newest => ?_
    have inside' : i ≤ (keys.map Sep.stuff).length := by rwa [length_map]
    have cut := cutIndex_eq_iff sorted separated inside' stored newest.admitted
    have located := bsearchKeyLow_locates sorted smeta key
    have index : (bsearchKeyLow (keys.map Sep.stuff) key smeta .latest).1 =
        cutIndex pos (keys.map Sep.stuff) (smeta.place key) := located.index.symm
    rw [index, cut, and_comm]
    refine and_congr_left fun current => ?_
    rw [findKeyNonLeaf]
    by_cases empty : keys = []
    · subst empty
      obtain rfl : i = 0 := Nat.le_zero.mp inside
      cases isRoot <;> simp
    · rw [if_neg empty, index, cut.mpr current]
      simp [empty]

end

/-- On a sorted node with the separator invariant all searches are right exactly
when the filter admits some sequence number (or no key of the node lies before
its place), and no separator is a newer admitted version than those stored. -/
theorem node_searches_iff (n : Node κ) (sorted : SortedBy pos n.stuff)
    (below : ℕ → List (KeyStuff κ)) (separated : Separated n.stuff below) (isRoot : Bool) (key : κ)
    (smeta : SeqFilter) :
    n.Searches isRoot below key smeta ↔
      ((∃ s, smeta.Passes s) ∨ ∀ ks ∈ n.stuff, smeta.place key ≤ ks.pos) ∧
        n.Current isRoot below key smeta := by
  have located := bsearchKeyLow_locates sorted smeta key
  rw [← located.absent_iff sorted, ← choosesChild_iff sorted separated]
  constructor
  · intro searches
    exact ⟨searches.absent, searches.child⟩
  · rintro ⟨absent, child⟩
    exact ⟨located.admits_iff sorted, located.newest sorted, absent, next_first sorted smeta,
      inclusive_first sorted, child⟩

/-- Versions 3 and 2 of key 1 are in neighbouring children. -/
theorem node_searches_among_versions :
    (Node.nonleaf 1 0 [⟨1, 3, 7⟩] 8 : Node ℕ).Searches true
      (fun i => if i = 0 then [⟨1, 3⟩] else [⟨1, 2⟩]) 1 (.le 2) := by
  have sorted : SortedBy pos (Node.nonleaf 1 0 [⟨1, 3, 7⟩] 8 : Node ℕ).stuff :=
    pairwise_singleton _ _
  refine (node_searches_iff _ sorted _ (fun i inside v stored => ?_) _ _ _).mpr
    ⟨.inl ⟨0, by decide⟩, fun i _ v _ _ => ⟨.inl (cons_ne_nil _ _), fun ks mem admitted => ?_⟩⟩
  · obtain rfl | rfl : i = 0 ∨ i = 1 := Nat.le_one_iff_eq_zero_or_eq_one.mp inside
    · obtain rfl := mem_singleton.mp stored
      exact ⟨nofun, fun _ => le_refl _⟩
    · obtain rfl := mem_singleton.mp stored
      refine ⟨fun j h less => ?_, nofun⟩
      obtain rfl : j = 0 := Nat.lt_one_iff.mp less
      exact lt_iff.mpr (.inr ⟨rfl, WithTop.coe_lt_coe.mpr (Nat.lt_succ_self 2)⟩)
  · obtain rfl : ks = ⟨1, 3⟩ := mem_singleton.mp mem
    exact absurd admitted.2 (by decide)

/-- The separator of version 5 of key 1 has outlived that version, and version 3
is stored on its right: the search for the key goes to the left. The filter `GT_LE`
that admits nothing gives the place of its start, though every key is after nothing. -/
theorem newest_version_missed :
    ¬ (Node.nonleaf 1 0 [⟨1, 5, 7⟩] 8 : Node ℕ).Searches true
        (fun i => if i = 1 then [⟨1, 3⟩] else []) 1 .any ∧
    ¬ (Node.nonleaf 1 0 [⟨0, 5, 7⟩] 8 : Node ℕ).Searches true (fun _ => []) 1 (.gtLe 3 3) := by
  refine ⟨fun searches => ?_, fun searches => ?_⟩
  · have newest : Newest (fun i => if i = 1 then [(⟨1, 3⟩ : KeyStuff ℕ)] else []) 1 .any 1 ⟨1, 3⟩ := by
      refine ⟨⟨rfl, trivial⟩, fun i _ w mem _ => ?_⟩
      split_ifs at mem
      · rw [mem_singleton.mp mem]
      · cases mem
    have chosen : 0 = 1 :=
      (searches.child 1 le_rfl ⟨1, 3⟩ (mem_singleton.mpr rfl) newest).1
    cases chosen
  · exact (searches.absent rfl).before 0 (by decide) (by decide) fun s passes =>
      absurd passes.1 (not_lt.mpr passes.2)

end Zetascale.Btree
