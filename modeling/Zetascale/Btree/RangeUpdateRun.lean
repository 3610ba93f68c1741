import Zetascale.Btree.LargeObjects
import Zetascale.Btree.RangeUpdate
import Zetascale.Btree.Refine

/-!
# Whole range updates

What holds between two steps of a range update: the keys of the range up to the
marker have been offered, and those that the callback changed have their new
data, but for the one that still has to be written on its own. The keys beyond
the marker are as they were. Every step moves the marker, or finds that nothing
is left beyond it.
-/

namespace Zetascale.Btree

open List Option Pos Node

variable {κ : Type} [LinearOrder κ] {m key : κ} {range : KeyRange κ} {marker : Option κ}

/-- The key is not beyond the marker. -/
def Passed (marker : Option κ) (key : κ) : Prop := ∃ m ∈ marker, key ≤ m

/-- The key is in the range and beyond the marker. -/
def KeyRange.Ahead (range : KeyRange κ) (marker : Option κ) (key : κ) : Prop :=
  range.side key = .within ∧ ¬ Passed marker key

instance (marker : Option κ) (key : κ) : Decidable (Passed marker key) :=
  inferInstanceAs (Decidable (∃ m ∈ marker, key ≤ m))

instance (range : KeyRange κ) (marker : Option κ) (key : κ) : Decidable (range.Ahead marker key) :=
  inferInstanceAs (Decidable (_ ∧ ¬ _))

@[simp] theorem passed_none (key : κ) : ¬ Passed none key := by
  rintro ⟨m, mem, -⟩
  cases mem

@[simp] theorem passed_some : Passed (some m) key ↔ key ≤ m := by
  simp [Passed]

theorem KeyRange.Ahead.behind {key' : κ}
    (ahead : range.Ahead marker key) (passed : Passed marker key') : key' < key := by
  obtain ⟨m, mem, le⟩ := passed
  exact le.trans_lt (not_le.mp fun le' => ahead.2 ⟨m, mem, le'⟩)

/-! ## The searches -/

variable {entries : List (Entry κ)} {t : Tree κ} {seqno : ℕ}

section

variable {keys : List (Sep κ)}

theorem mem_take_getElem {α : Type} {l : List α} {x : α} {index : ℕ} (mem : x ∈ l.take index) :
    ∃ (j : ℕ) (inside : j < l.length), j < index ∧ l[j] = x := by
  obtain ⟨j, less, rfl⟩ := getElem_of_mem mem
  rw [length_take] at less
  exact ⟨j, by omega, by omega, by rw [getElem_take]⟩

/-- The binary search stops between a key before the range and one that is
not. -/
theorem findFirstLoop_spec {fuel i_start stop : ℕ} {i_last_match : Option ℕ}
    (enough : stop - i_start < fuel) (le : i_start ≤ stop) (inside : stop ≤ keys.length)
    (last : i_last_match.getD keys.length = stop)
    (below : i_start ≠ 0 → ∀ k ∈ keys[i_start - 1]?, range.side k.key = .before)
    (above : ∀ k ∈ keys[stop]?, range.side k.key ≠ .before) :
    let found := (findFirstLoop range keys fuel i_start stop i_last_match).getD keys.length
    found ≤ keys.length ∧ (found ≠ 0 → ∀ k ∈ keys[found - 1]?, range.side k.key = .before) ∧
      ∀ k ∈ keys[found]?, range.side k.key ≠ .before := by
  induction fuel generalizing i_start stop i_last_match with
  | zero => omega
  | succ fuel ih =>
    unfold findFirstLoop
    by_cases more : i_start < stop
    · have center : (i_start + stop - 1) / 2 < keys.length := by omega
      simp only [if_pos more, getElem?_eq_getElem center]
      split_ifs with before
      · refine ih (by omega) (by omega) inside last (fun _ k mem => ?_) above
        rw [Nat.add_sub_cancel, getElem?_eq_getElem center] at mem
        cases mem
        exact before
      · refine ih (by omega) (by omega) center.le rfl below fun k mem => ?_
        rw [getElem?_eq_getElem center] at mem
        cases mem
        exact before
    · obtain rfl : i_start = stop := by omega
      rw [if_neg more, last]
      exact ⟨inside, below, above⟩

/-- The child that the marker leads to: the one after the last separator that is
not beyond it. -/
theorem rupdateChild_some (range : KeyRange κ) (sorted : SortedBy Sep.pos keys) (m : κ) :
    FirstAt (fun s : Sep κ => m < s.key) keys (rupdateChild range (some m) keys) := by
  have first : FirstAt (fun ks : KeyStuff κ => m < ks.key) _ _ :=
    next_first ((sortedBy_map Sep.stuff keys).mpr sorted) .any
  unfold rupdateChild
  dsimp only
  obtain ⟨inside, before, here⟩ := first
  simp only [length_map, getElem_map, Sep.stuff] at inside before here
  exact ⟨inside, before, here⟩

theorem rupdateChild_none (range : KeyRange κ) (keys : List (Sep κ)) :
    rupdateChild range none keys ≤ keys.length ∧ (rupdateChild range none keys ≠ 0 →
        ∀ k ∈ keys[rupdateChild range none keys - 1]?, range.side k.key = .before) ∧
      ∀ k ∈ keys[rupdateChild range none keys]?, range.side k.key ≠ .before :=
  findFirstLoop_spec (by omega) (Nat.zero_le _) le_rfl rfl (fun never => absurd rfl never)
    (by simp)

variable {p : WithTop (Pos κ) → Prop}

omit [LinearOrder κ] in
/-- A child of a node, after the children whose separators have a property. -/
theorem preceded_slotAt {level next rightmost index : ℕ}
    {hi : WithTop (Pos κ)} (inside : index ≤ keys.length)
    (before : ∀ k ∈ keys.take index, p (k.pos : WithTop (Pos κ))) :
    PrecededBy p ((Node.nonleaf level next keys rightmost).slots hi)
      (slotAt keys rightmost hi index) := by
  have small : ∀ x ∈ (keys.take index).map
      (fun s : Sep κ => (⟨s.ptr, (s.pos : WithTop (Pos κ))⟩ : Slot _)), p x.hi := by
    intro x mem
    obtain ⟨s, sMem, rfl⟩ := mem_map.mp mem
    exact before s sMem
  have cut := slots_cut level next rightmost (keys.take index) (keys.drop index) hi
  rw [take_append_drop] at cut
  rw [cut]
  rcases inside.eq_or_lt with rfl | less
  · exact ⟨_, [], by simp [slotAt, slots], small⟩
  · rw [drop_eq_getElem_cons less]
    refine ⟨_, (Node.nonleaf level next (keys.drop (index + 1)) rightmost).slots hi, ?_, small⟩
    simp only [slotAt, slots, getElem?_eq_getElem less, map_cons, cons_append]

/-- A descent arrives at a leaf. Whatever holds of the separators that it passes
holds of the bounds before the leaf, and whatever holds of those it turns off at
holds of the leaf's own. -/
theorem rupdateDescend_preceded (range : KeyRange κ) (marker : Option κ) {h : ℕ}
    (shape : Shape t h) {q : Pos κ → Prop} (inherits : ∀ {a b}, a ≤ b → p b → p a)
    (passes : ∀ id level next keys rightmost, t.nodes id = some (.nonleaf level next keys rightmost) →
      SortedBy Sep.pos keys → rupdateChild range marker keys ≤ keys.length ∧
        (∀ k ∈ keys.take (rupdateChild range marker keys), p (k.pos : WithTop (Pos κ))) ∧
        ∀ k ∈ keys[rupdateChild range marker keys]?, q k.pos) {d fuel : ℕ} {s : Slot (Pos κ)}
    (le : d ≤ h) (enough : h - d < fuel) (preceded : PrecededBy p (t.level d) s)
    (bound : ∀ b : Pos κ, s.hi = b → q b) :
    ∃ leaf, rupdateDescend t range marker fuel s.id = some leaf.id ∧
      PrecededBy p (t.level h) leaf ∧ ∀ b : Pos κ, leaf.hi = b → q b := by
  induction fuel generalizing d s with
  | zero => cases enough
  | succ fuel ih =>
    have mem : s ∈ t.level d := by
      obtain ⟨pre, post, cut, -⟩ := preceded
      simp [cut]
    unfold rupdateDescend
    rcases le.eq_or_lt with rfl | lt
    · obtain ⟨next, entries, stored⟩ := shape.leaf mem
      simp only [stored]
      exact ⟨s, rfl, preceded, bound⟩
    · obtain ⟨next, keys, rightmost, stored⟩ := shape.nonleaf lt mem
      have sorted := (shape.keys_sorted lt mem stored).1
      obtain ⟨inside, front, here⟩ := passes s.id _ next keys rightmost stored sorted
      simp only [stored, ← slotAt_id keys rightmost s.hi]
      refine ih lt (by omega) ?_ ?_
      · apply preceded.child inherits (shape.ascending lt) fun x xMem => shape.closed lt xMem
        simp only [childSlots, stored]
        exact preceded_slotAt inside front
      · intro b eq
        unfold slotAt at eq
        cases child : keys[rupdateChild range marker keys]? with
        | none =>
          rw [child] at eq
          exact bound b eq
        | some k =>
          rw [child] at eq
          obtain rfl := WithTop.coe_injective eq
          exact here k child

/-- What the search in a leaf tells. -/
inductive NextOutcome (range : KeyRange κ) (marker : Option κ) (entries : List (Entry κ)) :
    NextKey κ → Prop
  | found {l r : List (Entry κ)} {e : Entry κ} {seqno : ℕ} (cut : entries = l ++ e :: r)
      (before : ∀ x ∈ l, x.key < e.key ∧ ¬ range.Ahead marker x.key)
      (ahead : range.Ahead marker e.key) (first : marker = none → seqno = e.seqno) :
      NextOutcome range marker entries (.found e seqno)
  | outOfRange {l r : List (Entry κ)} {e : Entry κ} {m : κ} (marked : marker = some m)
      (cut : entries = l ++ e :: r) (before : ∀ x ∈ l, x.key ≤ m) (beyond : m < e.key)
      (outside : range.side e.key ≠ .within) : NextOutcome range marker entries .outOfRange
  | endOfLeaf (all : ∀ x ∈ entries, ¬ range.Ahead marker x.key)
      (marked : ∀ m ∈ marker, ∀ x ∈ entries, x.key ≤ m) :
      NextOutcome range marker entries .endOfLeaf

theorem findNextRupdateKey_outcome (range : KeyRange κ) (marker : Option κ)
    (sorted : SortedBy Entry.pos entries) :
    NextOutcome range marker entries (findNextRupdateKey range marker entries) := by
  unfold findNextRupdateKey
  cases marker with
  | none =>
    cases search : entries.find? fun e => range.side e.key = .within with
    | none =>
      have outside : ∀ x ∈ entries, range.side x.key ≠ .within := by simpa using search
      exact .endOfLeaf (fun x mem ahead => outside x mem ahead.1) (fun m mem => nomatch mem)
    | some e =>
      obtain ⟨here, l, r, rfl, before⟩ := find?_eq_some_iff_append.mp search
      have inside : range.side e.key = .within := of_decide_eq_true here
      refine .found rfl (fun x mem => ?_) ⟨inside, passed_none _⟩ fun _ => rfl
      have outside : range.side x.key ≠ .within := by simpa using before x mem
      have le := key_le_of_le ((sortedBy_append.mp sorted).2.2 x mem e (by simp)).le
      exact ⟨lt_of_le_of_ne le fun same => outside (same ▸ inside), fun ahead => outside ahead.1⟩
  | some m =>
    have first : FirstAt (fun ks : KeyStuff κ => m < ks.key) _ _ :=
      next_first ((sortedBy_map Entry.stuff entries).mpr sorted) .any
    dsimp only
    generalize (bsearchKeyLow (entries.map Entry.stuff) m .any .next).1 = i at first ⊢
    obtain ⟨inside, before, here⟩ := first
    simp only [length_map, getElem_map, Entry.stuff, not_lt] at inside before here
    have passedBefore : ∀ x ∈ entries.take i, x.key ≤ m := by
      intro x mem
      obtain ⟨j, jInside, less, rfl⟩ := mem_take_getElem mem
      exact before j jInside less
    rcases inside.eq_or_lt with rfl | less
    · rw [getElem?_eq_none le_rfl]
      rw [take_length] at passedBefore
      refine .endOfLeaf (fun x mem ahead => ahead.2 (passed_some.mpr (passedBefore x mem))) ?_
      intro m' mem
      cases mem
      exact passedBefore
    · have cut : entries = entries.take i ++ entries[i] :: entries.drop (i + 1) := by
        rw [cons_getElem_drop_succ, take_append_drop]
      simp only [getElem?_eq_getElem less]
      split_ifs with within
      · refine .found cut (fun x mem => ?_) ⟨within, ?_⟩ (by simp)
        · exact ⟨(passedBefore x mem).trans_lt (here less), fun ahead =>
            ahead.2 (passed_some.mpr (passedBefore x mem))⟩
        · rw [passed_some, not_le]
          exact here less
      · exact .outOfRange rfl cut passedBefore (here less) within

/-- A version is in a snapshot unless it is newer than all of them. -/
theorem btreeSnapSeqnoInSnap_eq_false {snapshots : List ℕ} (sorted : snapshots.Pairwise (· < ·)) :
    btreeSnapSeqnoInSnap snapshots seqno = false ↔
      btreeSnapFindMetaIndex snapshots seqno = none := by
  rw [btreeSnapFindMetaIndex_eq sorted, snapshotFor_eq_none]
  unfold btreeSnapSeqnoInSnap
  rcases eq_nil_or_concat snapshots with rfl | ⟨front, last, rfl⟩
  · simp
  · rw [concat_eq_append] at sorted ⊢
    have upto : ∀ s ∈ front, s < last := fun s mem =>
      (pairwise_append.mp sorted).2.2 s mem last (by simp)
    simp only [getLast?_append, getLast?_singleton, some_or,
      decide_eq_false_iff_not, not_le, mem_append, mem_singleton]
    constructor
    · rintro newer s (mem | rfl)
      · exact (upto s mem).trans newer
      · exact newer
    · exact fun all => all last (.inr rfl)

end

/-! ## What a range update is for -/

/-- The data that a key has after the callback. -/
def RangeUpdate.result (ru : RangeUpdate κ) (key : κ) (data : Data) : Data :=
  match ru.callback_func key data with
  | none => data
  | some new => RupdateState.newData data new

open RangeUpdate

/-- The callback changes an object. -/
def RangeUpdate.changes (ru : RangeUpdate κ) (offer : κ × Data) : Bool :=
  (ru.callback_func offer.1 offer.2).isSome

/-- Every key of the range that was there has been offered once, in order. The
data answered is there, nothing else has changed, and no snapshot sees any of
it. The version before has been replaced in its place unless a snapshot has
it. -/
structure RangeUpdated (cfg : Config κ) (ru : RangeUpdate κ) (t : Tree κ) (s : RupdateState κ) :
    Prop where
  ascending : (s.offers.map Prod.fst).Pairwise (· < ·)
  offered : ∀ key data, (key, data) ∈ s.offers ↔
    ru.range.side key = .within ∧ btreeRawGet cfg t key .any = some (.success, data)
  latest : ∀ key data, (key, data) ∈ s.offers →
    btreeRawGet cfg s.tree key .any = some (.success, ru.result key data)
  others : ∀ key, (∀ data, (key, data) ∉ s.offers) →
    btreeRawGet cfg s.tree key .any = btreeRawGet cfg t key .any
  kept : ∀ n ∈ t.snapshots, ∀ key,
    btreeRawGet cfg s.tree key (.le n) = btreeRawGet cfg t key (.le n)
  rewritten : s.rewrites.map (fun w => w.1.key) = (s.offers.filter ru.changes).map Prod.fst
  in_place : ∀ w ∈ s.rewrites, w.2 = !btreeSnapSeqnoInSnap t.snapshots w.1.seqno
  counted : s.objs_updated = s.rewrites.length

namespace RupdateState

/-- The leaf to which the first descent leads has the first key of the range in
the tree. -/
def Arrives (range : KeyRange κ) (t : Tree κ) : Prop :=
  ∀ id, rupdateDescend t range none (t.rootLevel + 1) t.rootid = some id →
    ∀ id' next entries, t.nodes id' = some (.leaf next entries) →
      ∀ x ∈ entries, range.side x.key = .within →
        ∃ e ∈ entriesOf t.nodes id, range.side e.key = .within ∧ e.pos ≤ x.pos

/-- What a step needs. The search has to return a sequence number that is in a
snapshot if and only if the version found is; new data has to be of a size that
can be stored, and a write on its own must be one that may be made. -/
def Sound (cfg : Config κ) (ru : RangeUpdate κ) (s : RupdateState κ) : Prop :=
  match s.phase with
  | .descend => s.marker = none → Arrives ru.range s.tree
  | .leaf id _ _ => ∀ next entries e seqno data new, s.tree.nodes id = some (.leaf next entries) →
      findNextRupdateKey ru.range s.marker entries = .found e seqno → e.tombstone = false →
      getLeafDataNthKey cfg s.tree e = some (.success, data) →
      ru.callback_func e.key data = some new →
      new.length ≤ BTREE_MAX_DATA_SIZE_SUPPORTED ∧
      (needsSpace cfg ru (s.offers.length + 1) entries e.key data new
          (btreeSnapSeqnoInSnap s.tree.snapshots seqno) = false →
        (cfg.Unwrapped (cfg.keylen e.key) (newData data new).length ∧
          cfg.Writable (cfg.keylen e.key) (newData data new).length) ∧
        (ru.seqno_alloc_cb s.drawn).isSome = true ∧
        btreeSnapSeqnoInSnap s.tree.snapshots seqno = btreeSnapSeqnoInSnap s.tree.snapshots e.seqno)
  | .retry key data => data ≠ [] ∧ ∃ seqno, ru.seqno_alloc_cb s.drawn = some seqno ∧
      MayWrite cfg s.tree ⟨key, data, seqno, false⟩ .update
  | .finished => True
  | .failed => True

end RupdateState

/-! ## Between two steps -/

variable {cfg : Config κ} {ru : RangeUpdate κ} {s : RupdateState κ} {h last : ℕ}
  {versions₀ versions : List (Entry κ × Data)} {e : Entry κ} {data new : Data}

section

open RupdateState

variable {versions' : List (Entry κ × Data)} {pending : Option κ}

/-- What has been done, up to the marker, of a range update of a tree with the
versions `versions₀`. The key `pending` has been offered, but not written. -/
structure Doing (cfg : Config κ) (ru : RangeUpdate κ) (t : Tree κ)
    (versions₀ : List (Entry κ × Data)) (s : RupdateState κ) (pending : Option κ) (h last : ℕ)
    (versions : List (Entry κ × Data)) : Prop where
  inv : Inv cfg s.tree h last versions
  snapshots : s.tree.snapshots = t.snapshots
  fresh : ∀ i, s.drawn ≤ i → ∀ n ∈ ru.seqno_alloc_cb i, last < n
  marker : ∀ m ∈ s.marker, ru.range.side m = .within
  ascending : (s.offers.map Prod.fst).Pairwise (· < ·)
  offered : ∀ key data, (key, data) ∈ s.offers ↔ ru.range.side key = .within ∧
    Passed s.marker key ∧ valueAt versions₀ key ⊤ = some data
  done : ∀ key, ru.range.side key = .within → Passed s.marker key → pending ≠ some key →
    valueAt versions key ⊤ = (valueAt versions₀ key ⊤).map (ru.result key)
  untouched : ∀ key, (ru.range.side key = .within → Passed s.marker key → pending = some key) →
    valueAt versions key ⊤ = valueAt versions₀ key ⊤
  kept : ∀ n ∈ t.snapshots, ∀ key,
    valueAt versions key (WithTop.some n) = valueAt versions₀ key (WithTop.some n)
  rewritten : s.rewrites.map (fun w => w.1.key) ++ pending.toList =
    (s.offers.filter ru.changes).map Prod.fst
  in_place : ∀ w ∈ s.rewrites, w.2 = !btreeSnapSeqnoInSnap t.snapshots w.1.seqno
  counted : s.objs_updated = s.rewrites.length

/-- Nothing of the range is left. -/
def NoneAhead (range : KeyRange κ) (marker : Option κ) (versions : List (Entry κ × Data)) : Prop :=
  ∀ v ∈ versions, ¬ range.Ahead marker v.1.key

/-- The call is at a leaf, and no key ahead is before it. If the call has not
found a key yet and the leaf has none, nothing is left. -/
def AtLeaf (range : KeyRange κ) (s : RupdateState κ) (h id count : ℕ)
    (versions : List (Entry κ × Data)) : Prop :=
  ∃ pre slot post, s.tree.level h = pre ++ slot :: post ∧ slot.id = id ∧
    (∀ x ∈ pre, ∀ e ∈ entriesOf s.tree.nodes x.id, ¬ range.Ahead s.marker e.key) ∧
    (count = 0 → findNextRupdateKey range s.marker (entriesOf s.tree.nodes id) = .endOfLeaf →
      NoneAhead range s.marker versions)

/-- What holds between two steps. -/
def Progress (cfg : Config κ) (ru : RangeUpdate κ) (t : Tree κ)
    (versions₀ : List (Entry κ × Data)) (s : RupdateState κ) : Prop :=
  ∃ pending h last versions, Doing cfg ru t versions₀ s pending h last versions ∧
    match s.phase with
    | .descend => pending = none
    | .leaf id count too_big => pending = none ∧ too_big = false ∧
        AtLeaf ru.range s h id count versions
    | .retry key data => pending = some key ∧ s.marker = some key ∧
        ∃ old new, valueAt versions₀ key ⊤ = some old ∧ ru.callback_func key old = some new ∧
          data = newData old new
    | .finished => pending = none ∧ NoneAhead ru.range s.marker versions
    | .failed => False

theorem exists_version_of_value (value : valueAt versions key ⊤ = some data) :
    ∃ v ∈ versions, v.1.key = key := by
  obtain ⟨v, seen, -⟩ := bind_eq_some_iff.mp value
  obtain ⟨mem, same, -⟩ := visible_some seen
  exact ⟨v, mem, same⟩

/-- At the end the update has done what it is for. -/
theorem Doing.updated (doing : Doing cfg ru t versions₀ s none h last versions)
    {h₀ last₀ : ℕ} (inv₀ : Inv cfg t h₀ last₀ versions₀)
    (noneAhead : NoneAhead ru.range s.marker versions) : RangeUpdated cfg ru t s := by
  have get₀ : ∀ key, btreeRawGet cfg t key .any = some (answer (valueAt versions₀ key ⊤)) :=
    inv₀.get (.inl rfl)
  have get : ∀ key, btreeRawGet cfg s.tree key .any = some (answer (valueAt versions key ⊤)) :=
    doing.inv.get (.inl rfl)
  have reads : ∀ {value : Option Data} {data : Data},
      answer value = (.success, data) ↔ value = some data := by
    intro value data
    cases value <;> simp [answer]
  -- a key of the range that was there is either passed, or still there and ahead
  have passed : ∀ {key data}, ru.range.side key = .within →
      valueAt versions₀ key ⊤ = some data → Passed s.marker key := by
    intro key data inside value
    by_contra ahead
    rw [← doing.untouched key fun _ passed => absurd passed ahead] at value
    obtain ⟨v, mem, rfl⟩ := exists_version_of_value value
    exact noneAhead v mem ⟨inside, ahead⟩
  refine ⟨doing.ascending, fun key data => ?_, fun key data mem => ?_, fun key absent => ?_,
    fun n mem key => ?_, ?_, doing.in_place, doing.counted⟩
  · rw [doing.offered, get₀, some.injEq, reads]
    exact ⟨fun known => ⟨known.1, known.2.2⟩,
      fun known => ⟨known.1, passed known.1 known.2, known.2⟩⟩
  · obtain ⟨inside, passed, value⟩ := (doing.offered key data).mp mem
    rw [get, doing.done key inside passed (by simp), value]
    rfl
  · rw [get, get₀]
    by_cases waiting : ru.range.side key = .within ∧ Passed s.marker key
    · rw [doing.done key waiting.1 waiting.2 (by simp)]
      cases value : valueAt versions₀ key ⊤ with
      | none => rfl
      | some data =>
        exact absurd ((doing.offered key data).mpr ⟨waiting.1, waiting.2, value⟩) (absent data)
    · rw [doing.untouched key fun inside passed => absurd ⟨inside, passed⟩ waiting]
  · have seen := doing.inv.get (.inr ⟨n, doing.snapshots ▸ mem, rfl⟩) key
    have seen₀ := inv₀.get (.inr ⟨n, mem, rfl⟩) key
    rw [doing.kept n mem key, ← seen₀] at seen
    exact seen
  · have rewritten := doing.rewritten
    rwa [toList_none, append_nil] at rewritten

/-- The marker moves to the next key. What the callback is offered is the data of
the key, if it is there. -/
theorem Doing.advance (doing : Doing cfg ru t versions₀ s none h last versions)
    (ahead : ru.range.Ahead s.marker e.key)
    (first : ∀ v ∈ versions, ru.range.Ahead s.marker v.1.key → e.key ≤ v.1.key)
    {offers : List (κ × Data)}
    (offers_eq : offers = s.offers ++ (valueAt versions e.key ⊤).toList.map (Prod.mk e.key))
    (settled : pending = some e.key ∨ pending = none ∧
      valueAt versions e.key ⊤ = (valueAt versions e.key ⊤).map (ru.result e.key))
    (rewritten : s.rewrites.map (fun w => w.1.key) ++ pending.toList =
      (offers.filter ru.changes).map Prod.fst) (phase : RupdatePhase κ) :
    Doing cfg ru t versions₀ { s with marker := some e.key, offers := offers, phase := phase }
      pending h last versions := by
  have same : ∀ {key}, ¬ Passed s.marker key → valueAt versions key ⊤ = valueAt versions₀ key ⊤ :=
    fun beyond => doing.untouched _ fun _ passed => absurd passed beyond
  -- between the marker and the next key there is nothing
  have between : ∀ {key}, ru.range.side key = .within → ¬ Passed s.marker key → key < e.key →
      valueAt versions₀ key ⊤ = none := by
    intro key inside beyond less
    cases value : valueAt versions₀ key ⊤ with
    | none => rfl
    | some data =>
      rw [← same beyond] at value
      obtain ⟨v, mem, rfl⟩ := exists_version_of_value value
      exact absurd (first v mem ⟨inside, beyond⟩) (not_le.mpr less)
  have offeredHere : ∀ key data,
      (key, data) ∈ (valueAt versions e.key ⊤).toList.map (Prod.mk e.key) ↔
        key = e.key ∧ valueAt versions₀ key ⊤ = some data := by
    intro key data
    simp only [List.mem_map, mem_toList, Prod.mk.injEq, same ahead.2]
    constructor
    · rintro ⟨value, here, rfl, rfl⟩
      exact ⟨rfl, here⟩
    · rintro ⟨rfl, here⟩
      exact ⟨data, here, rfl, rfl⟩
  refine ⟨doing.inv, doing.snapshots, doing.fresh, ?_, ?_, fun key data => ?_,
    fun key inside passed waiting => ?_, fun key waiting => ?_, doing.kept, rewritten,
    doing.in_place, doing.counted⟩
  · intro m mem
    cases mem
    exact ahead.1
  · rw [offers_eq, map_append, pairwise_append]
    refine ⟨doing.ascending, ?_, ?_⟩
    · cases valueAt versions e.key ⊤ <;> simp
    · intro key mem key' mem'
      obtain ⟨⟨_, data⟩, offer, rfl⟩ := mem_map.mp mem
      obtain ⟨⟨_, data'⟩, offer', rfl⟩ := mem_map.mp mem'
      rw [((offeredHere _ _).mp offer').1]
      exact ahead.behind ((doing.offered _ _).mp offer).2.1
  · rw [offers_eq, mem_append, doing.offered, offeredHere, passed_some]
    constructor
    · rintro (⟨inside, passed, value⟩ | ⟨rfl, value⟩)
      · exact ⟨inside, (ahead.behind passed).le, value⟩
      · exact ⟨ahead.1, le_refl _, value⟩
    · rintro ⟨inside, le, value⟩
      by_cases passed : Passed s.marker key
      · exact .inl ⟨inside, passed, value⟩
      · rcases le.eq_or_lt with rfl | less
        · exact .inr ⟨rfl, value⟩
        · rw [between inside passed less] at value
          cases value
  · by_cases before : Passed s.marker key
    · exact doing.done key inside before nofun
    · rcases (passed_some.mp passed).eq_or_lt with rfl | less
      · rcases settled with eq | ⟨-, value⟩
        · exact absurd eq waiting
        · rwa [same before] at value ⊢
      · rw [same before, between inside before less]
        rfl
  · apply doing.untouched key
    intro inside passed
    have less := ahead.behind passed
    have eq := waiting inside (passed_some.mpr less.le)
    rcases settled with here | ⟨unmarked, -⟩
    · rw [here, some.injEq] at eq
      exact absurd eq less.ne'
    · cases unmarked.symm.trans eq

theorem Doing.settle {old : Data} {h' : ℕ} {t' : Tree κ}
    {w : Entry κ × Bool} (doing : Doing cfg ru t versions₀ s (some key) h last versions)
    (marked : s.marker = some key) (drawn : ru.seqno_alloc_cb s.drawn = some seqno)
    (value : valueAt versions₀ key ⊤ = some old) (changed : ru.callback_func key old = some new)
    (data_eq : data = newData old new) (inv : Inv cfg t' h' seqno versions')
    (snapshots : t'.snapshots = s.tree.snapshots)
    (written : Written s.tree.snapshots ⟨key, data, seqno, false⟩ versions versions')
    (wKey : w.1.key = key) (wPlace : w.2 = !btreeSnapSeqnoInSnap s.tree.snapshots w.1.seqno)
    (phase : RupdatePhase κ) : Doing cfg ru t versions₀ { s with
        tree := t'
        phase := phase
        objs_updated := s.objs_updated + 1
        drawn := s.drawn + 1
        rewrites := s.rewrites ++ [w] } none h' seqno versions' := by
  have inside := doing.marker key marked
  refine ⟨inv, snapshots.trans doing.snapshots, ?_, doing.marker, doing.ascending, doing.offered,
    fun key' inside' passed _ => ?_, fun key' waiting => ?_, fun n mem key' => ?_, ?_, ?_, ?_⟩
  · intro i later n mem
    exact ru.increasing later seqno drawn n mem
  · rw [written.active]
    split_ifs with same
    · obtain rfl : key' = key := same
      simp [Obj.value, value, result, changed, data_eq]
    · exact doing.done key' inside' passed fun eq => same (some.inj eq).symm
  · rw [written.active]
    split_ifs with same
    · obtain rfl : key' = key := same
      have never := waiting inside ⟨key', marked, le_refl _⟩
      cases never
    · exact doing.untouched key' fun inside' passed => nomatch waiting inside' passed
  · rw [written.snapshots n (doing.snapshots ▸ mem) key']
    exact doing.kept n mem key'
  · have rewritten := doing.rewritten
    rw [map_append, map_singleton, wKey, toList_none, append_nil]
    exact rewritten
  · intro w' mem
    rcases mem_append.mp mem with before | here
    · exact doing.in_place w' before
    · rw [mem_singleton.mp here, wPlace, doing.snapshots]
  · rw [length_append, ← doing.counted]
    rfl

end

/-! ## The next key -/

variable {next : ℕ} {slot : Slot (Pos κ)} {pre post : List (Slot (Pos κ))} {l r : List (Entry κ)}

section

variable {x : Entry κ} {v : Entry κ × Data}

omit [LinearOrder κ] in
/-- An entry is in a leaf before, at or after a leaf. -/
theorem mem_contents_cut (cut : t.level h = pre ++ slot :: post) :
    x ∈ t.contents h ↔ (∃ y ∈ pre, x ∈ entriesOf t.nodes y.id) ∨ x ∈ entriesOf t.nodes slot.id ∨
      ∃ y ∈ post, x ∈ entriesOf t.nodes y.id := by
  unfold Tree.contents
  rw [cut, flatMap_append, flatMap_cons, mem_append, mem_append, mem_flatMap, mem_flatMap]

theorem Inv.mem_contents (inv : Inv cfg t h last versions) (mem : v ∈ versions) :
    v.1 ∈ t.contents h := by
  rw [← inv.contents]
  exact mem_map_of_mem mem

/-- Entries of a leaf come before those of the leaves behind it. -/
theorem Shape.before_post (shape : Shape t h) (cut : t.level h = pre ++ slot :: post) {y : Entry κ}
    {s : Slot (Pos κ)} (mem : s ∈ post) (here : x ∈ entriesOf t.nodes slot.id)
    (there : y ∈ entriesOf t.nodes s.id) : x.pos < y.pos := by
  have sorted := shape.contents_sorted
  unfold Tree.contents at sorted
  rw [cut, flatMap_append, flatMap_cons] at sorted
  have back := (sortedBy_append.mp (sortedBy_append.mp sorted).2.1).2.2
  exact back x here y (mem_flatMap.mpr ⟨s, mem, there⟩)

theorem Shape.above_pre (shape : Shape t h) (cut : t.level h = pre ++ slot :: post)
    {s : Slot (Pos κ)} (mem : s ∈ pre) (here : x ∈ entriesOf t.nodes slot.id) :
    s.hi < (x.pos : WithTop (Pos κ)) := by
  have tiled := shape.tiled
  rw [cut, map_append, map_cons] at tiled
  exact tiled.before (mem_map_of_mem mem) here

section

variable (inv : Inv cfg t h last versions) (cut : t.level h = pre ++ slot :: post)

include inv cut

/-- A version is in a leaf before, left of an entry in its leaf, or not before the
entry. -/
theorem Inv.version_cut (stored : t.nodes slot.id = some (.leaf next (l ++ e :: r)))
    (mem : v ∈ versions) :
    (∃ y ∈ pre, v.1 ∈ entriesOf t.nodes y.id) ∨ v.1 ∈ l ∨ e.key ≤ v.1.key := by
  have slotMem : slot ∈ t.level h := by simp [cut]
  have sorted := inv.shape.leaf_sorted slotMem stored
  rcases (mem_contents_cut cut).mp (inv.mem_contents mem) with inPre | inSlot | ⟨y, yMem, inPost⟩
  · exact .inl inPre
  · simp only [entriesOf, stored, mem_append, mem_cons] at inSlot
    rcases inSlot with inLeft | isE | inRight
    · exact .inr (.inl inLeft)
    · exact .inr (.inr (isE ▸ le_refl _))
    · have later := (sortedBy_cons.mp (sortedBy_append.mp sorted).2.1).1 _ inRight
      exact .inr (.inr (key_le_of_le later.le))
  · have member : e ∈ entriesOf t.nodes slot.id := by simp [entriesOf, stored]
    have later := inv.shape.before_post cut yMem member inPost
    exact .inr (.inr (key_le_of_le later.le))

/-- A leaf with others behind it has a bound, and a version that the bound
promises. -/
theorem Inv.promised {y : Slot (Pos κ)} (mem : y ∈ post) :
    ∃ b : Pos κ, slot.hi = b ∧ ∃ x ∈ entriesOf t.nodes slot.id, x.key = b.key := by
  have ascending := inv.shape.ascending le_rfl
  rw [cut] at ascending
  have less : slot.hi < y.hi := (pairwise_cons.mp (pairwise_append.mp ascending).2.1).1 y mem
  obtain ⟨b, hi, -⟩ := WithTop.lt_iff_exists_coe.mp less
  obtain ⟨x, xMem, xKey, -, -⟩ := inv.covered slot (by simp [cut]) b hi ⊤ (.inl rfl) le_top
  exact ⟨b, hi, x, xMem, xKey⟩

/-- The first key ahead in a leaf is the first one ahead in the tree, if there is
none before the leaf, and its latest version is there. -/
theorem Inv.next_ahead (clear : ∀ x ∈ pre, ∀ e ∈ entriesOf t.nodes x.id, ¬ range.Ahead marker e.key)
    (stored : t.nodes slot.id = some (.leaf next (l ++ e :: r)))
    (before : ∀ x ∈ l, x.key < e.key ∧ ¬ range.Ahead marker x.key)
    (ahead : range.Ahead marker e.key) :
    (∀ v ∈ versions, range.Ahead marker v.1.key → e.key ≤ v.1.key) ∧
      Covers (t.level h) ⟨e.key, ⊤⟩ slot ∧ latestIn (l ++ e :: r) e.key = some e ∧
      ∃ data, (e, data) ∈ versions ∧ valueAt versions e.key ⊤ = valueOf (e, data) := by
  have slotEntries : entriesOf t.nodes slot.id = l ++ e :: r := by simp [entriesOf, stored]
  have member : e ∈ entriesOf t.nodes slot.id := by simp [slotEntries]
  have slotMem : slot ∈ t.level h := by simp [cut]
  have covers : Covers (t.level h) ⟨e.key, ⊤⟩ slot := by
    refine ⟨pre, post, cut, fun x mem => ?_, ?_⟩
    · by_contra reaches
      have above := inv.shape.above_pre cut mem member
      obtain ⟨p, hi, less⟩ := WithTop.lt_iff_exists_coe.mp above
      rw [hi, not_lt, WithTop.coe_le_coe] at reaches
      have same : p.key = e.key := le_antisymm
        (key_le_of_le (WithTop.coe_lt_coe.mp less).le) (key_le_of_le reaches)
      -- the separator promises a version of the key in an earlier leaf
      obtain ⟨y, yMem, yKey, -, -⟩ := inv.covered x (by simp [cut, mem]) p hi ⊤ (.inl rfl) le_top
      exact clear x mem y yMem (by rwa [yKey, same])
    · have upto := inv.shape.upto_hi slotMem member
      exact (WithTop.coe_le_coe.mpr (top_le_iff.mpr (le_refl e.key))).trans upto
  have latest : latestIn (l ++ e :: r) e.key = some e :=
    visible_insert (fun x mem => (before x mem).1.ne) le_top
  refine ⟨fun v mem vAhead => ?_, covers, latest, ?_⟩
  · rcases inv.version_cut cut stored mem with ⟨y, yMem, inPre⟩ | inLeft | le
    · exact absurd vAhead (clear y yMem _ inPre)
    · exact absurd vAhead (before _ inLeft).2
    · exact le
  · have seen := inv.visible_leaf (.inl rfl) covers
    have whole := visible_map_fst versions e.key ⊤
    rw [inv.contents, seen, slotEntries] at whole
    obtain ⟨⟨_, data⟩, version, rfl⟩ := map_eq_some_iff.mp (whole.trans latest)
    refine ⟨data, (visible_some version).1, ?_⟩
    unfold valueAt lookup
    rw [version, bind_some]

end

end

/-! ## The work that is left -/

theorem KeyRange.Ahead.mono (ahead : range.Ahead marker key) {key' : κ}
    (further : range.Ahead (some key) key') : range.Ahead marker key' :=
  ⟨further.1, fun passed => further.2 (passed_some.mpr (ahead.behind passed).le)⟩

/-- How many keys of a set are ahead. -/
def aheadCount (range : KeyRange κ) (marker : Option κ) (keys : Finset κ) : ℕ :=
  (keys.filter fun key => range.Ahead marker key).card

theorem aheadCount_le (ahead : range.Ahead marker key) (keys : Finset κ) :
    aheadCount range (some key) keys ≤ aheadCount range marker keys :=
  Finset.card_le_card (Finset.monotone_filter_right keys fun _ _ further => ahead.mono further)

theorem aheadCount_lt (ahead : range.Ahead marker key) {keys : Finset κ} (mem : key ∈ keys) :
    aheadCount range (some key) keys < aheadCount range marker keys := by
  apply Finset.card_lt_card
  refine Finset.ssubset_iff_subset_ne.mpr
    ⟨Finset.monotone_filter_right keys fun _ _ further => ahead.mono further, fun same => ?_⟩
  have further := (Finset.mem_filter.mp (same ▸ Finset.mem_filter.mpr ⟨mem, ahead⟩)).2
  exact further.2 (passed_some.mpr (le_refl key))

/-- The keys that are there. -/
def liveKeys (versions : List (Entry κ × Data)) : Finset κ :=
  (versions.map fun v => v.1.key).toFinset.filter fun key => (valueAt versions key ⊤).isSome

/-- The keys of which a tree has versions. -/
def treeKeys (t : Tree κ) : Finset κ := ((t.contents t.rootLevel).map Entry.key).toFinset

/-- Whether a single write is due. -/
def RupdatePhase.due : RupdatePhase κ → ℕ
  | .retry .. => 1
  | _ => 0

/-- How far the present call is from its end. -/
def RupdatePhase.rank : RupdatePhase κ → ℕ
  | .leaf _ (_ + 1) _ => 3
  | .descend => 2
  | .leaf _ 0 _ => 1
  | _ => 0

/-- The work that is left. A single write may change the keys of the tree, so it
comes before them; it does not change what was there at the start. -/
def RupdateState.work (range : KeyRange κ) (versions₀ : List (Entry κ × Data))
    (s : RupdateState κ) : ℕ ×ₗ ℕ ×ₗ ℕ ×ₗ ℕ :=
  toLex (aheadCount range s.marker (liveKeys versions₀), toLex (s.phase.due,
    toLex (aheadCount range s.marker (treeKeys s.tree), s.phase.rank)))

open RupdateState

theorem toLex_lt_of_le {α β : Type} [LinearOrder α] [Preorder β] {a a' : α} {b b' : β} (le : a ≤ a')
    (lt : b < b') : toLex (a, b) < toLex (a', b') := by
  rw [Prod.Lex.toLex_lt_toLex]
  rcases le.lt_or_eq with less | same
  · exact .inl less
  · exact .inr ⟨same, lt⟩

/-- In the same phase of the writes, a lower rank is less work. -/
theorem RupdateState.work_lt_of_rank {phase : RupdatePhase κ}
    (due : phase.due = s.phase.due) (less : phase.rank < s.phase.rank) :
    work range versions₀ { s with phase := phase } < s.work range versions₀ :=
  toLex_lt_of_le le_rfl (toLex_lt_of_le due.le (toLex_lt_of_le le_rfl less))

theorem toLex_lt_of_lt {α β : Type} [LinearOrder α] [Preorder β] {a a' : α} (b b' : β)
    (lt : a < a') : toLex (a, b) < toLex (a', b') :=
  Prod.Lex.toLex_lt_toLex.mpr (.inl lt)

/-! ## Steps -/

section

open RupdateState

variable {id count : ℕ} {s' : RupdateState κ}

/-- A step keeps what holds between steps and leaves less work. -/
def Moves (cfg : Config κ) (ru : RangeUpdate κ) (t : Tree κ) (versions₀ : List (Entry κ × Data))
    (s s' : RupdateState κ) : Prop :=
  Progress cfg ru t versions₀ s' ∧ s'.work ru.range versions₀ < s.work ru.range versions₀

omit [LinearOrder κ] in
theorem mem_level_of_cut (cut : t.level h = pre ++ slot :: post) : slot ∈ t.level h := by
  rw [cut]
  exact mem_append_right _ mem_cons_self

theorem Arrives.atLeaf (arrives : Arrives ru.range s.tree) (unmarked : s.marker = none)
    (inv : Inv cfg s.tree h last versions) :
    ∃ id, rupdateDescend s.tree ru.range none (s.tree.rootLevel + 1) s.tree.rootid = some id ∧
      AtLeaf ru.range s h id 0 versions := by
  obtain ⟨leaf, found, ⟨pre, post, cut, -⟩, -⟩ := rupdateDescend_preceded ru.range none
    inv.shape (p := fun _ => True) (q := fun _ => True) (fun _ _ => trivial)
    (fun _ _ _ keys _ _ _ => ⟨(rupdateChild_none ru.range keys).1, fun _ _ => trivial,
      fun _ _ => trivial⟩)
    (Nat.zero_le h) inv.shape.depth_lt ⟨[], [], rfl, by simp⟩ (fun _ _ => trivial)
  have stored : ∀ {y : Slot (Pos κ)}, y ∈ s.tree.level h →
      ∃ next, s.tree.nodes y.id = some (.leaf next (entriesOf s.tree.nodes y.id)) := by
    intro y mem
    obtain ⟨next, entries, stored⟩ := inv.shape.leaf mem
    exact ⟨next, by simp [entriesOf, stored]⟩
  refine ⟨leaf.id, found, pre, leaf, post, cut, rfl, fun x mem e here ahead => ?_, fun _ ended => ?_⟩
  · have xMem : x ∈ s.tree.level h := by
      rw [cut]
      exact mem_append_left _ mem
    obtain ⟨next, node⟩ := stored xMem
    obtain ⟨e', here', -, le⟩ := arrives leaf.id found x.id next _ node e here ahead.1
    have above := inv.shape.above_pre cut mem here'
    have upto := inv.shape.upto_hi xMem here
    exact absurd (WithTop.coe_lt_coe.mp (upto.trans_lt above)) (not_lt.mpr le)
  · intro v mem ahead
    obtain ⟨y, yMem, inY⟩ := mem_flatMap.mp (inv.mem_contents mem)
    obtain ⟨next, node⟩ := stored yMem
    obtain ⟨e, here, inside, -⟩ := arrives leaf.id found y.id next _ node v.1 inY ahead.1
    have outcome := findNextRupdateKey_outcome ru.range s.marker
      (inv.shape.entries_sorted (mem_level_of_cut cut))
    rw [ended] at outcome
    cases outcome with
    | endOfLeaf all _ => exact all e here ⟨inside, by rw [unmarked]; exact passed_none _⟩

/-- The comparison puts the separators of a tree on the side of its keys of the
range on which they are. -/
def KeyRange.Orderly (range : KeyRange κ) (t : Tree κ) : Prop :=
  ∀ id level next keys rightmost, t.nodes id = some (.nonleaf level next keys rightmost) →
    ∀ k ∈ keys, ∀ id' next' entries, t.nodes id' = some (.leaf next' entries) →
      ∀ x ∈ entries, range.side x.key = .within →
        (range.side k.key = .before → k.key < x.key) ∧ (range.side k.key = .after → x.key < k.key)

/-- `btree_key_in_range` is not orderly where a separator that is shorter than the
range key sorts behind a key of the range: it counts as lying before the range. -/
theorem keysStartingWith_not_orderly {t : Tree (List (Fin 256))} {range_key : List (Fin 256)}
    {id level next rightmost : ℕ} {keys : List (Sep (List (Fin 256)))} {k : Sep (List (Fin 256))}
    (node : t.nodes id = some (.nonleaf level next keys rightmost)) (mem : k ∈ keys)
    (short : k.key.length < range_key.length) {id' next' : ℕ}
    {entries : List (Entry (List (Fin 256)))} {x : Entry (List (Fin 256))}
    (stored : t.nodes id' = some (.leaf next' entries)) (here : x ∈ entries)
    (within : (keysStartingWith range_key).side x.key = .within) (behind : x.key < k.key) :
    ¬ (keysStartingWith range_key).Orderly t := by
  intro orderly
  have before : (keysStartingWith range_key).side k.key = .before := if_pos short
  have sides := orderly id level next keys rightmost node k mem id' next' entries stored x here within
  exact absurd (sides.1 before) (not_lt.mpr behind.le)

/-- An orderly comparison leads the first descent to the first key of the
range. -/
theorem Inv.arrives_of_orderly (inv : Inv cfg t h last versions)
    (orderly : range.Orderly t) : Arrives range t := by
  have sides : ∀ {id level next keys rightmost k},
      t.nodes id = some (.nonleaf level next keys rightmost) → k ∈ keys → ∀ x ∈ t.contents h,
        range.side x.key = .within → (range.side k.key = .before → k.key < x.key) ∧
          (range.side k.key = .after → x.key < k.key) := by
    intro id level next keys rightmost k node kMem x mem
    obtain ⟨y, yMem, here⟩ := mem_flatMap.mp mem
    obtain ⟨next', entries, stored⟩ := inv.shape.leaf yMem
    simp only [entriesOf, stored] at here
    exact orderly id level next keys rightmost node k kMem y.id next' entries stored x here
  obtain ⟨leaf, found, ⟨pre, post, cut, before⟩, bound⟩ := rupdateDescend_preceded range none
    inv.shape (d := 0)
    (p := fun hi => ∃ k : Pos κ, hi ≤ k ∧ ∀ x ∈ t.contents h, range.side x.key = .within →
      k.key < x.key)
    (q := fun b => range.side b.key ≠ .before ∧ (range.side b.key = .after →
      ∀ x ∈ t.contents h, range.side x.key = .within → x.key < b.key))
    (fun le => Exists.imp fun _ => And.imp_left le.trans)
    (by
      intro id level next keys rightmost node sorted
      obtain ⟨inside, below, here⟩ := rupdateChild_none range keys
      refine ⟨inside, fun k mem => ?_, fun k child => ⟨here k child, fun after x xMem within =>
        (sides node (mem_of_getElem? child) x xMem within).2 after⟩⟩
      -- the separators passed are not behind the last of them, which is before the range
      obtain ⟨j, jInside, less, rfl⟩ := mem_take_getElem mem
      have lastInside : rupdateChild range none keys - 1 < keys.length := by omega
      have isBefore := below (by omega) _ (getElem?_eq_getElem lastInside)
      refine ⟨keys[rupdateChild range none keys - 1].pos, ?_, fun x xMem within =>
        (sides node (getElem_mem lastInside) x xMem within).1 isBefore⟩
      rw [WithTop.coe_le_coe]
      rcases (show j ≤ rupdateChild range none keys - 1 by omega).eq_or_lt with rfl | earlier
      · exact le_refl _
      · exact (pairwise_iff_getElem.mp sorted _ _ jInside lastInside earlier).le)
    (Nat.zero_le h) inv.shape.depth_lt ⟨[], [], rfl, by simp⟩ (by simp)
  intro id found' id' next entries stored x here within
  cases found.symm.trans found'
  obtain ⟨d, le, y, yMem, rfl⟩ := inv.shape.reached id' (by rw [stored]; exact some_ne_none _)
  have atLeaves : y ∈ t.level h := by
    obtain ⟨n, node, kind⟩ := inv.shape.kinds d le y yMem
    cases stored.symm.trans node
    have zero : h - d = 0 := kind
    obtain rfl : d = h := by omega
    exact yMem
  have xIn : x ∈ entriesOf t.nodes y.id := by simpa only [entriesOf, stored] using here
  have xMem : x ∈ t.contents h := mem_flatMap.mpr ⟨y, atLeaves, xIn⟩
  have upto := inv.shape.upto_hi atLeaves xIn
  rw [cut, mem_append, mem_cons] at atLeaves
  rcases atLeaves with inPre | rfl | inPost
  · obtain ⟨k, hi, behind⟩ := before y inPre
    have le' := key_le_of_le (WithTop.coe_le_coe.mp (upto.trans hi))
    exact absurd (behind x xMem within) (not_lt.mpr le')
  · exact ⟨x, xIn, within, le_refl _⟩
  · obtain ⟨b, hi, e, eMem, eKey⟩ := inv.promised cut inPost
    have later := inv.shape.before_post cut inPost eMem xIn
    refine ⟨e, eMem, ?_, later.le⟩
    obtain ⟨notBefore, after⟩ := bound b hi
    rw [eKey]
    cases side : range.side b.key with
    | before => exact absurd side notBefore
    | within => rfl
    | after =>
      have le' : e.key ≤ x.key := key_le_of_le later.le
      rw [eKey] at le'
      exact absurd (after side x xMem within) (not_lt.mpr le')

theorem Inv.marked_atLeaf (inv : Inv cfg s.tree h last versions) (marked : s.marker = some m) :
    ∃ id, rupdateDescend s.tree ru.range (some m) (s.tree.rootLevel + 1) s.tree.rootid = some id ∧
      AtLeaf ru.range s h id 0 versions := by
  have inherits : ∀ {a b : WithTop (Pos κ)}, a ≤ b → (∃ k : Pos κ, b = k ∧ k.key ≤ m) →
      ∃ k : Pos κ, a = k ∧ k.key ≤ m := by
    rintro a _ le ⟨k, rfl, upto⟩
    obtain ⟨k', rfl, le'⟩ := WithTop.le_coe_iff.mp le
    exact ⟨k', rfl, (key_le_of_le le').trans upto⟩
  obtain ⟨leaf, found, ⟨pre, post, cut, before⟩, bound⟩ := rupdateDescend_preceded ru.range
    (some m) inv.shape (q := fun b => m < b.key) inherits
    (by
      intro _ _ _ keys _ _ sorted
      obtain ⟨inside, below, here⟩ := rupdateChild_some ru.range sorted m
      refine ⟨inside, fun k mem => ?_, fun k child => ?_⟩
      · obtain ⟨j, jInside, less, rfl⟩ := mem_take_getElem mem
        exact ⟨_, rfl, not_lt.mp (below j jInside less)⟩
      · obtain ⟨less, rfl⟩ := List.getElem?_eq_some_iff.mp child
        exact here less)
    (Nat.zero_le h) inv.shape.depth_lt ⟨[], [], rfl, by simp⟩ nofun
  have clear : ∀ x ∈ pre, ∀ e ∈ entriesOf s.tree.nodes x.id, e.key ≤ m := by
    intro x mem e here
    have xMem : x ∈ s.tree.level h := by
      rw [cut]
      exact mem_append_left _ mem
    obtain ⟨k, hi, upto⟩ := before x mem
    have le := inv.shape.upto_hi xMem here
    rw [hi, WithTop.coe_le_coe] at le
    exact (key_le_of_le le).trans upto
  refine ⟨leaf.id, found, pre, leaf, post, cut, rfl, fun x mem e here ahead => ?_,
    fun _ ended v mem ahead => ?_⟩
  · exact ahead.2 (marked ▸ passed_some.mpr (clear x mem e here))
  · have outcome := findNextRupdateKey_outcome ru.range s.marker
      (inv.shape.entries_sorted (mem_level_of_cut cut))
    rw [ended] at outcome
    cases outcome with
    | endOfLeaf all upto =>
      rcases (mem_contents_cut cut).mp (inv.mem_contents mem) with ⟨y, yMem, inPre⟩ | inSlot |
        ⟨y, yMem, inPost⟩
      · exact ahead.2 (marked ▸ passed_some.mpr (clear y yMem _ inPre))
      · exact all _ inSlot ahead
      · obtain ⟨b, hi, x, xMem, xKey⟩ := inv.promised cut yMem
        have le := upto m marked x xMem
        rw [xKey] at le
        exact absurd (bound b hi) (not_lt.mpr le)

theorem AtLeaf.advance (atLeaf : AtLeaf range s h id count versions) (shape : Shape s.tree h)
    (ahead : range.Ahead s.marker key) (marked : s'.marker = some key)
    (level : s'.tree.level h = s.tree.level h)
    (others : ∀ id' ≠ id, entriesOf s'.tree.nodes id' = entriesOf s.tree.nodes id')
    (versions' : List (Entry κ × Data)) : AtLeaf range s' h id (count + 1) versions' := by
  obtain ⟨pre, slot, post, cut, rfl, clear, -⟩ := atLeaf
  refine ⟨pre, slot, post, level.trans cut, rfl, fun x mem e here further => ?_,
    nofun⟩
  rw [others x.id (shape.beside le_rfl cut (mem_append_left _ mem)).2] at here
  rw [marked] at further
  exact clear x mem e here (ahead.mono further)

/-- An object that was there has been dealt with. -/
theorem work_lt_of_live
    (ahead : ru.range.Ahead s.marker key) (live : valueAt versions₀ key ⊤ = some data)
    (marked : s'.marker = some key) : s'.work ru.range versions₀ < s.work ru.range versions₀ := by
  obtain ⟨v, mem, rfl⟩ := exists_version_of_value live
  have member : v.1.key ∈ liveKeys versions₀ := by
    rw [liveKeys, Finset.mem_filter, List.mem_toFinset, live]
    exact ⟨mem_map_of_mem mem, rfl⟩
  unfold work
  rw [marked]
  exact toLex_lt_of_lt _ _ (aheadCount_lt ahead member)

/-- The new data goes to the leaf, in the place of the version that is there
unless a snapshot has it. -/
theorem Inv.rewrite {offered : ℕ} {in_snap : Bool} (inv : Inv cfg s.tree h last versions)
    (covers : Covers (s.tree.level h) ⟨e.key, ⊤⟩ slot)
    (stored : s.tree.nodes slot.id = some (.leaf next entries))
    (latest : latestIn entries e.key = some e) (fresh : last < seqno)
    (fits : needsSpace cfg ru offered entries e.key data new in_snap = false)
    (storable : cfg.Unwrapped (cfg.keylen e.key) (newData data new).length ∧
      cfg.Writable (cfg.keylen e.key) (newData data new).length)
    (agrees : in_snap = btreeSnapSeqnoInSnap s.tree.snapshots e.seqno) :
    ∃ t' changed versions', btreeLeafInsertLow cfg s.tree entries e.key (newData data new) seqno
        false (btreeLeafFindKey entries e.key .any).1 (!in_snap) = some (t', changed) ∧
      SameNodes s.tree t' ∧ Inv cfg (t'.setNode slot.id (.leaf next changed)) h seqno versions' ∧
      Written s.tree.snapshots ⟨e.key, newData data new, seqno, false⟩ versions versions' := by
  have index := (btreeLeafFindKey_latest (inv.shape.leaf_sorted covers.mem stored) e.key).2 e latest
  have member : e ∈ entries := (visible_some latest).1
  obtain ⟨-, small⟩ := (inv.roomy.fits _ _ stored).2 e member
  obtain ⟨short, writable⟩ := storable
  have notFull := (Bool.or_eq_false_iff.mp fits).2
  rw [← setNode_self stored] at inv covers
  let obj : Obj κ := ⟨e.key, newData data new, seqno, false⟩
  have freshObj : last < obj.seqno := fresh
  cases in_snap with
  | true =>
    have room := room_of_insert notFull
    exact inv.insert covers freshObj short small writable room
  | false =>
    have active : btreeSnapFindMetaIndex s.tree.snapshots e.seqno = none :=
      (btreeSnapSeqnoInSnap_eq_false inv.snapshots).mp agrees.symm
    have room := room_of_update notFull index rfl
    exact inv.replace covers freshObj short small writable latest active room

section

variable (doing : Doing cfg ru t versions₀ s none h last versions)

include doing

/-- A descent arrives. -/
theorem Doing.descend_moves (phase : s.phase = .descend) (sound : s.Sound cfg ru) :
    Moves cfg ru t versions₀ s (s.step cfg ru) := by
  have arrived : ∃ id, rupdateDescend s.tree ru.range s.marker (s.tree.rootLevel + 1)
      s.tree.rootid = some id ∧ AtLeaf ru.range s h id 0 versions := by
    cases marked : s.marker with
    | none =>
      unfold Sound at sound
      rw [phase] at sound
      exact Arrives.atLeaf (sound marked) marked doing.inv
    | some m => exact doing.inv.marked_atLeaf marked
  obtain ⟨id, found, atLeaf⟩ := arrived
  simp only [step, phase, found]
  exact ⟨⟨none, h, last, versions, { doing with }, rfl, rfl, atLeaf⟩,
    work_lt_of_rank (by rw [phase]; rfl) (by rw [phase]; exact lt_add_one 1)⟩

theorem Doing.leaf_ends
    (phase : s.phase = .leaf id count false) (noneAhead : NoneAhead ru.range s.marker versions) :
    Moves cfg ru t versions₀ s { s with phase := .finished } := by
  exact ⟨⟨none, h, last, versions, { doing with }, rfl, noneAhead⟩,
    work_lt_of_rank (by rw [phase]; rfl) (by rw [phase]; cases count <;> exact Nat.succ_pos _)⟩

/-- A key beyond the range ends the update, since the range has no gaps. -/
theorem Doing.noneAhead_of_outside (atLeaf : AtLeaf ru.range s h id count versions)
    (stored : s.tree.nodes id = some (.leaf next (l ++ e :: r))) (marked : s.marker = some m)
    (before : ∀ x ∈ l, x.key ≤ m) (beyond : m < e.key) (outside : ru.range.side e.key ≠ .within) :
    NoneAhead ru.range s.marker versions := by
  obtain ⟨pre, slot, post, cut, rfl, clear, -⟩ := atLeaf
  intro v mem ahead
  rcases doing.inv.version_cut cut stored mem with ⟨y, yMem, inPre⟩ | inLeft | le
  · exact clear y yMem _ inPre ahead
  · exact ahead.2 (marked ▸ passed_some.mpr (before _ inLeft))
  · exact outside (ru.range.convex beyond.le le (doing.marker m marked) ahead.1)

/-- A live key is offered to the callback, and what it answers is written, or
left to a write on its own. -/
theorem Doing.offer_moves {in_snap : Bool} (atLeaf : AtLeaf ru.range s h slot.id count versions)
    (stored : s.tree.nodes slot.id = some (.leaf next entries))
    (ahead : ru.range.Ahead s.marker e.key)
    (first : ∀ v ∈ versions, ru.range.Ahead s.marker v.1.key → e.key ≤ v.1.key)
    (covers : Covers (s.tree.level h) ⟨e.key, ⊤⟩ slot) (latest : latestIn entries e.key = some e)
    (value : valueAt versions e.key ⊤ = some data)
    (sound : ∀ new, ru.callback_func e.key data = some new →
      new.length ≤ BTREE_MAX_DATA_SIZE_SUPPORTED ∧
      (needsSpace cfg ru (s.offers.length + 1) entries e.key data new in_snap = false →
        (cfg.Unwrapped (cfg.keylen e.key) (newData data new).length ∧
          cfg.Writable (cfg.keylen e.key) (newData data new).length) ∧
        (ru.seqno_alloc_cb s.drawn).isSome = true ∧
        in_snap = btreeSnapSeqnoInSnap s.tree.snapshots e.seqno)) :
    Moves cfg ru t versions₀ s (RupdateState.offer cfg ru { s with marker := some e.key } slot.id
      count next entries (btreeLeafFindKey entries e.key .any).1 e data in_snap) := by
  have value₀ : valueAt versions₀ e.key ⊤ = some data := by
    rw [← doing.untouched e.key fun _ passed => absurd passed ahead.2]
    exact value
  have offers_eq : s.offers ++ [(e.key, data)] =
      s.offers ++ (valueAt versions e.key ⊤).toList.map (Prod.mk e.key) := by rw [value]; rfl
  have rewritten := doing.rewritten
  rw [toList_none, append_nil] at rewritten
  have less : ∀ {s' : RupdateState κ}, s'.marker = some e.key →
      s'.work ru.range versions₀ < s.work ru.range versions₀ :=
    fun marked => work_lt_of_live ahead value₀ marked
  unfold offer
  cases answered : ru.callback_func e.key data with
  | none =>
    have keeps : valueAt versions e.key ⊤ = (valueAt versions e.key ⊤).map (ru.result e.key) := by
      rw [value]
      simp [result, answered]
    have unchanged : s.rewrites.map (fun w => w.1.key) ++ (none : Option κ).toList =
        ((s.offers ++ [(e.key, data)]).filter ru.changes).map Prod.fst := by
      simp [rewritten, changes, answered]
    have offered := doing.advance ahead first offers_eq (.inr ⟨rfl, keeps⟩) unchanged
    refine ⟨⟨none, h, last, versions, offered _, rfl, rfl, ?_⟩, less rfl⟩
    apply atLeaf.advance doing.inv.shape ahead <;> intros <;> rfl
  | some new =>
    obtain ⟨size, sound⟩ := sound new answered
    simp only [if_neg (not_lt.mpr size)]
    have changed : s.rewrites.map (fun w => w.1.key) ++ (some e.key).toList =
        ((s.offers ++ [(e.key, data)]).filter ru.changes).map Prod.fst := by
      simp [rewritten, changes, answered]
    have offered := doing.advance ahead first offers_eq (.inl rfl) changed
    unfold rewrite
    simp only [length_append, length_singleton]
    cases space : needsSpace cfg ru (s.offers.length + 1) entries e.key data new in_snap with
    | true => exact ⟨⟨some e.key, h, last, versions, offered _, rfl, rfl, data, new, value₀, answered,
        rfl⟩, less rfl⟩
    | false =>
      obtain ⟨storable, drawn, agrees⟩ := sound space
      obtain ⟨seqno, drawn⟩ := isSome_iff_exists.mp drawn
      have fresh := doing.fresh s.drawn le_rfl seqno drawn
      obtain ⟨t', changed', versions', inserted, same, inv', written⟩ :=
        doing.inv.rewrite covers stored latest fresh space storable agrees
      simp only [drawn, inserted]
      have settled := (offered (.leaf slot.id (count + 1) false)).settle rfl drawn value₀ answered
        rfl inv' same.snapshots written (w := (e, !in_snap)) rfl (by rw [agrees])
        (.leaf slot.id (count + 1) false)
      refine ⟨⟨none, h, seqno, versions', settled, rfl, rfl, ?_⟩, less rfl⟩
      apply atLeaf.advance doing.inv.shape ahead rfl
      · exact setLeaf_level stored same h
      · intro id' other
        exact (setLeaf_entriesOf same id').trans (if_neg other)

theorem Doing.leaf_moves
    (phase : s.phase = .leaf id count false) (atLeaf : AtLeaf ru.range s h id count versions)
    (sound : s.Sound cfg ru) : Moves cfg ru t versions₀ s (s.step cfg ru) := by
  have ⟨pre, slot, post, cut, isSlot, clear, ended⟩ := atLeaf
  subst isSlot
  have inv := doing.inv
  obtain ⟨next, entries, stored⟩ := inv.shape.leaf (mem_level_of_cut cut)
  have slotEntries : entriesOf s.tree.nodes slot.id = entries := by simp [entriesOf, stored]
  have sorted := inv.shape.leaf_sorted (mem_level_of_cut cut) stored
  rw [slotEntries] at ended
  have outcome := findNextRupdateKey_outcome ru.range s.marker sorted
  unfold Sound at sound
  simp only [phase] at sound
  simp only [step, phase, stored, leafTurn]
  generalize search : findNextRupdateKey ru.range s.marker entries = result at outcome ended ⊢
  cases outcome with
  | endOfLeaf all upto =>
    simp only [Bool.false_eq_true, if_false]
    split_ifs with empty
    · exact doing.leaf_ends phase (ended empty rfl)
    · obtain ⟨n, rfl⟩ := Nat.exists_eq_succ_of_ne_zero empty
      exact ⟨⟨none, h, last, versions, { doing with }, rfl⟩,
        work_lt_of_rank (by rw [phase]; rfl) (by rw [phase]; exact lt_add_one 2)⟩
  | outOfRange marked here before beyond outside =>
    subst here
    exact doing.leaf_ends phase
      (doing.noneAhead_of_outside atLeaf stored marked before beyond outside)
  | @found l r e seqno here before ahead first =>
    subst here
    obtain ⟨firstAhead, covers, latest, data, mem, value⟩ :=
      inv.next_ahead cut clear stored before ahead
    dsimp only
    cases dead : e.tombstone with
    | true =>
      rw [valueOf, dead, if_pos rfl] at value
      have offers_eq : s.offers =
          s.offers ++ (valueAt versions e.key ⊤).toList.map (Prod.mk e.key) := by simp [value]
      have advanced := doing.advance ahead firstAhead offers_eq
        (.inr ⟨rfl, by rw [value]; rfl⟩) doing.rewritten (.leaf slot.id (count + 1) false)
      refine ⟨⟨none, h, last, versions, advanced, rfl, rfl, ?_⟩, ?_⟩
      · apply atLeaf.advance inv.shape ahead <;> intros <;> rfl
      · have member : e.key ∈ treeKeys s.tree := by
          rw [treeKeys, inv.shape.rootLevel_eq, List.mem_toFinset]
          exact mem_map_of_mem (inv.mem_contents mem)
        unfold work
        rw [phase]
        exact toLex_lt_of_le (aheadCount_le ahead _) (toLex_lt_of_le le_rfl
          (toLex_lt_of_lt _ _ (aheadCount_lt ahead member)))
    | false =>
      rw [valueOf, dead, if_neg Bool.false_ne_true] at value
      have found := (btreeLeafFindKey_latest sorted e.key).1
      rw [latest, isSome_some] at found
      have reads : getLeafDataNthKey cfg s.tree e = some (.success, data) := inv.stored.read mem
      simp only [(btreeLeafFindKey_latest sorted e.key).2 e latest, found, reads]
      exact doing.offer_moves atLeaf stored ahead firstAhead covers latest value
        fun new answered => sound next _ e seqno data new stored search dead reads answered

end

/-- A key that its leaf had no room for is written on its own. -/
theorem Doing.retry_moves {old : Data}
    (doing : Doing cfg ru t versions₀ s (some key) h last versions)
    (phase : s.phase = .retry key data) (marked : s.marker = some key)
    (value₀ : valueAt versions₀ key ⊤ = some old) (answered : ru.callback_func key old = some new)
    (data_eq : data = newData old new) (sound : s.Sound cfg ru) :
    Moves cfg ru t versions₀ s (s.step cfg ru) := by
  unfold Sound at sound
  rw [phase] at sound
  obtain ⟨nonempty, seqno, drawn, may⟩ := sound
  have inv := doing.inv
  have fresh := doing.fresh s.drawn le_rfl seqno drawn
  have value : valueAt versions key ⊤ = some old := by
    rw [doing.untouched key fun _ _ => rfl]
    exact value₀
  obtain ⟨t', h', versions', ran, inv', snapshots, outcome⟩ := inv.write fresh may
  rw [value] at ran outcome
  obtain ⟨leaf, -, leafOf⟩ := inv.leafFor key
  have sorted := inv.leaf_sorted leafOf
  have present := inv.present leafOf
  rw [value] at present
  cases latest : latestIn (leafFor s.tree key) key with
  | none => simp [latest] at present
  | some e =>
    have index := (btreeLeafFindKey_latest sorted key).2 e latest
    have place : decide (btreeSnapFindMetaIndex s.tree.snapshots e.seqno = none) =
        !btreeSnapSeqnoInSnap s.tree.snapshots e.seqno := by
      rw [Bool.eq_iff_iff, decide_eq_true_eq, Bool.not_eq_true',
        btreeSnapSeqnoInSnap_eq_false inv.snapshots]
    have foundEq : RupdateState.found s.tree ⟨key, data, seqno, false⟩ =
        some (e, !btreeSnapSeqnoInSnap s.tree.snapshots e.seqno) := by
      have update := isUpdate_eq s.tree ⟨key, data, seqno, false⟩ sorted
      simp only [latest, any_some, Bool.not_false, Bool.true_and, place] at update
      simp [found, index, update]
    have settled := doing.settle marked drawn value₀ answered data_eq inv' snapshots outcome
      (w := (e, !btreeSnapSeqnoInSnap s.tree.snapshots e.seqno)) (visible_some latest).2.1 rfl
      .descend
    simp only [step, phase, retryTurn, if_neg nonempty, drawn, ran, foundEq, toList_some]
    rw [← marked]
    refine ⟨⟨none, h', seqno, versions', settled, rfl⟩, ?_⟩
    unfold work
    rw [phase]
    exact toLex_lt_of_le le_rfl (toLex_lt_of_lt _ _ one_pos)

end

/-! ## Whole runs -/

section

open RupdateState

/-- A range update is over, or its next step leaves less work. -/
theorem Progress.moves (progress : Progress cfg ru t versions₀ s) (sound : s.Sound cfg ru) :
    s.phase = .finished ∨ Moves cfg ru t versions₀ s (s.step cfg ru) := by
  obtain ⟨pending, h, last, versions, doing, phaseInv⟩ := progress
  cases phase : s.phase with
  | descend =>
    rw [phase] at phaseInv
    subst phaseInv
    exact .inr (doing.descend_moves phase sound)
  | leaf id count too_big =>
    rw [phase] at phaseInv
    obtain ⟨rfl, rfl, atLeaf⟩ := phaseInv
    exact .inr (doing.leaf_moves phase atLeaf sound)
  | retry key data =>
    rw [phase] at phaseInv
    obtain ⟨rfl, marked, old, new, value₀, answered, data_eq⟩ := phaseInv
    exact .inr (doing.retry_moves phase marked value₀ answered data_eq sound)
  | finished => exact .inl rfl
  | failed =>
    rw [phase] at phaseInv
    exact phaseInv.elim

/-- A range update whose steps are sound comes to its end. -/
theorem Progress.finishes (progress : Progress cfg ru t versions₀ s)
    (sound : ∀ n, ((step cfg ru)^[n] s).Sound cfg ru) :
    ∃ n, ((step cfg ru)^[n] s).phase = .finished ∧
      Progress cfg ru t versions₀ ((step cfg ru)^[n] s) := by
  generalize left : s.work ru.range versions₀ = work
  induction work using WellFoundedLT.induction generalizing s with
  | ind work ih =>
    rcases progress.moves (sound 0) with isOver | ⟨progress', less⟩
    · exact ⟨0, isOver, progress⟩
    · obtain ⟨n, isOver, progress''⟩ := ih _ (left ▸ less) progress' (fun n => sound (n + 1)) rfl
      exact ⟨n + 1, isOver, progress''⟩

/-- A range update whose steps are sound offers every live key of the range once
and in order, and writes what the callback answers. -/
theorem range_update_right (cfg : TreeConfig κ) (inv : Inv cfg.toConfig t h last versions)
    (fresh : ∀ i, ∀ n ∈ ru.seqno_alloc_cb i, last < n)
    (sound : ∀ n, ((step cfg.toConfig ru)^[n] (start t)).Sound cfg.toConfig ru) :
    ∃ n, ((step cfg.toConfig ru)^[n] (start t)).phase = .finished ∧
      RangeUpdated cfg.toConfig ru t ((step cfg.toConfig ru)^[n] (start t)) := by
  have begun : Progress cfg.toConfig ru t versions (start t) := by
    refine ⟨none, h, last, versions, ?_, rfl⟩
    exact {
      inv := inv
      snapshots := rfl
      fresh := fun i _ => fresh i
      marker := nofun
      ascending := List.Pairwise.nil
      offered := fun key data => ⟨fun mem => (nomatch mem), fun ⟨_, passed, _⟩ =>
        absurd passed (passed_none key)⟩
      done := fun key _ passed => absurd passed (passed_none key)
      untouched := fun _ _ => rfl
      kept := fun _ _ _ => rfl
      rewritten := rfl
      in_place := nofun
      counted := rfl }
  obtain ⟨n, isOver, pending, h', last', versions', doing, ended⟩ := begun.finishes sound
  rw [isOver] at ended
  obtain ⟨rfl, exhausted⟩ := ended
  exact ⟨n, isOver, doing.updated inv exhausted⟩

/-- After the end of a range update nothing happens any more. -/
theorem sound_of_finished (count : ℕ) (isOver : ((step cfg ru)^[count] s).phase = .finished)
    (each : ∀ n < count, ((step cfg ru)^[n] s).Sound cfg ru) (n : ℕ) :
    ((step cfg ru)^[n] s).Sound cfg ru := by
  rcases lt_or_ge n count with before | after
  · exact each n before
  · obtain ⟨more, rfl⟩ := Nat.exists_eq_add_of_le after
    rw [add_comm, Function.iterate_add_apply, Function.iterate_fixed (by rw [step, isOver])]
    unfold Sound
    rw [isOver]
    trivial

end

/-! ## Samples -/

open RupdateState

/-- The numbers from 15 on. -/
def fromFifteen : KeyRange ℕ where
  side := fun key => if key < 15 then .before else .within
  convex := by
    intro a b c low _ first _
    have inside : ¬ a < 15 := by
      intro less
      rw [if_pos less] at first
      cases first
    exact if_neg (by omega)

/-- Nines for every object of the range. -/
def nines : RangeUpdate ℕ where
  range := fromFifteen
  callback_func := fun _ _ => some [9]
  is_nodes_available := fun _ _ => true
  seqno_alloc_cb := fun i => some (i + 5)
  increasing := by
    intro i j less m mem n mem'
    cases mem
    cases mem'
    omega

/-- The tree after a history. -/
def treeAfter (ops : List (Op ℕ)) : Tree ℕ :=
  ((runOps sampleTree ops).map Session.tree).getD .init

theorem treeAfter_inv (ops : List (Op ℕ)) (last : ℕ) (admissible : Admissible sampleTree ops)
    (drawn : (runOps sampleTree ops).map Session.last = some last) :
    ∃ h versions, Inv sampleTree (treeAfter ops) h last versions := by
  obtain ⟨s, ran, -, h, versions, inv, -⟩ := admissible.runs
  rw [ran, map_some, some.injEq] at drawn
  refine ⟨h, versions, ?_⟩
  rw [treeAfter, ran, ← drawn]
  exact inv

/-- Three objects, of which two are in the range. -/
def threeObjects : List (Op ℕ) :=
  [.write 10 [1] 1 .set, .write 20 [2] 2 .set, .write 30 [3] 3 .set]

/-- Without snapshots both are offered and get their new data. -/
theorem range_update_right_for_two :
    ∃ n, ((step sampleTree nines)^[n] (start (treeAfter threeObjects))).phase = .finished ∧
      RangeUpdated sampleTree nines (treeAfter threeObjects)
        ((step sampleTree nines)^[n] (start (treeAfter threeObjects))) := by
  obtain ⟨h, versions, inv⟩ := treeAfter_inv threeObjects 3 (by decide) rfl
  refine range_update_right smallNodes inv (fun i n mem => ?_) ?_
  · cases mem
    omega
  · apply sound_of_finished 6 rfl
    intro n less
    interval_cases n
    · intro _
      apply inv.arrives_of_orderly
      intro id level next keys rightmost node
      -- the root is the only node, and a leaf
      obtain ⟨d, le, y, yMem, rfl⟩ := inv.shape.reached id (by simp [node])
      obtain ⟨n, node', kind⟩ := inv.shape.kinds d le y yMem
      cases node.symm.trans node'
      have height : (treeAfter threeObjects).rootLevel = h := inv.shape.rootLevel_eq
      obtain rfl : 0 = h := height
      exact absurd (Nat.zero_sub d) kind.2
    · intro next entries e seqno data new stored search dead reads answered
      cases (show some (Node.leaf 0 [⟨10, 1, false, 1, 0, [1]⟩, ⟨20, 2, false, 1, 0, [2]⟩,
        ⟨30, 3, false, 1, 0, [3]⟩]) = _ from stored)
      cases (show NextKey.found ⟨20, 2, false, 1, 0, [2]⟩ 2 = _ from search)
      cases (show some (Status.success, [2]) = some (Status.success, data) from reads)
      cases answered
      exact ⟨by decide, fun _ => ⟨by decide, rfl, rfl⟩⟩
    · intro next entries e seqno data new stored search dead reads answered
      cases (show some (Node.leaf 0 [⟨10, 1, false, 1, 0, [1]⟩, ⟨20, 5, false, 1, 0, [9]⟩,
        ⟨30, 3, false, 1, 0, [3]⟩]) = _ from stored)
      cases (show NextKey.found ⟨30, 3, false, 1, 0, [3]⟩ 0 = _ from search)
      cases (show some (Status.success, [3]) = some (Status.success, data) from reads)
      cases answered
      exact ⟨by decide, fun _ => ⟨by decide, rfl, rfl⟩⟩
    on_goal 2 => exact nofun
    all_goals
      intro next entries e seqno data new stored search
      cases (show some (Node.leaf 0 [⟨10, 1, false, 1, 0, [1]⟩, ⟨20, 5, false, 1, 0, [9]⟩,
        ⟨30, 6, false, 1, 0, [9]⟩]) = _ from stored)
      cases (show NextKey.endOfLeaf = _ from search)

/-- The same objects with a snapshot before the last two. -/
def snapshotBefore : List (Op ℕ) :=
  [.write 10 [1] 1 .set, .snapCreate 2, .write 20 [2] 3 .set, .write 30 [3] 4 .set]

/-- A tree whose separator 30 is no longer in the leaf to its left. -/
def staleSeparator : Tree ℕ where
  nodes := fun id => match id with
    | 1 => some (.nonleaf 1 0 [⟨30, 3, 2⟩] 3)
    | 2 => some (.leaf 3 [⟨10, 1, false, 1, 0, [1]⟩, ⟨20, 2, false, 1, 0, [2]⟩])
    | 3 => some (.leaf 0 [⟨40, 4, false, 1, 0, [4]⟩])
    | _ => none
  ovnodes := fun _ => none
  rootid := 1
  logical_id_counter := 4
  snapshots := []

/-- The object 30 is newer than the snapshot, but since it is found through the
marker it is not replaced in its place. -/
theorem range_update_not_in_place :
    (∃ h versions, Inv sampleTree (treeAfter snapshotBefore) h 4 versions) ∧
    (∀ i, ∀ n ∈ nines.seqno_alloc_cb i, 4 < n) ∧
    ((step sampleTree nines)^[6] (start (treeAfter snapshotBefore))).phase = .finished ∧
    ¬ RangeUpdated sampleTree nines (treeAfter snapshotBefore)
      ((step sampleTree nines)^[6] (start (treeAfter snapshotBefore))) := by
  refine ⟨treeAfter_inv snapshotBefore 4 (by decide) rfl, fun i n mem => ?_, rfl, fun right => ?_⟩
  · cases mem
    omega
  · have place := right.in_place (⟨30, 4, false, 1, 0, [3]⟩, false) (by
      have rewrites : ((step sampleTree nines)^[6] (start (treeAfter snapshotBefore))).rewrites =
        [(⟨20, 3, false, 1, 0, [2]⟩, true), (⟨30, 4, false, 1, 0, [3]⟩, false)] := rfl
      rw [rewrites]
      simp)
    exact absurd place (by decide)

/-- A separator whose key has been removed ends the update before its time. -/
example : ((step sampleTree nines)^[6] (start staleSeparator)).phase = .finished ∧
    ((step sampleTree nines)^[6] (start staleSeparator)).offers = [(20, [2])] ∧
    btreeRawGet sampleTree staleSeparator 40 .any = some (.success, [4]) := ⟨rfl, rfl, rfl⟩

end Zetascale.Btree
