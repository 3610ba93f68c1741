import Zetascale.Btree.Footprint
import Zetascale.Btree.NodeSearch
import Zetascale.Btree.Ops

/-!
# Range updates

`_ZSRangeUpdate` of `btree/fdf_wrapper.c` and `btree_raw_rupdate` of
`btree/btree_raw.c`. The keys of a range are offered to a callback, and what it
answers becomes their data. The work is cut into calls: each one descends to a
leaf and goes through it, and a marker with the last key tells the next one
where to go on. A key for which its leaf has no room ends the call and is
written on its own.

The state below is the one between two keys. Its histories, the keys offered and
the versions rewritten in their leaf, are kept for the specification only.
-/

namespace Zetascale.Btree

open List

/-- Where a range comparison puts a key. -/
inductive RangeSide
  | before
  | within
  | after
  deriving DecidableEq

/-- A range of keys as its comparison callback tells it: what lies between two
keys of the range is in the range. -/
structure KeyRange (κ : Type) [LinearOrder κ] where
  side : κ → RangeSide
  convex : ∀ {a b c : κ}, a ≤ b → b ≤ c → side a = .within → side c = .within → side b = .within

/-! ## The comparison of the library -/

/-- `btree_key_in_range`: the keys that start with the range key. A shorter key
counts as lying before the range, whatever its bytes are. -/
def btreeKeyInRange (range_key key : List (Fin 256)) : RangeSide :=
  if key.length < range_key.length then .before
  else if range_key < key.take range_key.length then .after
  else if key.take range_key.length < range_key then .before
  else .within

theorem btreeKeyInRange_within {range_key key : List (Fin 256)} :
    btreeKeyInRange range_key key = .within ↔ ∃ rest, key = range_key ++ rest := by
  unfold btreeKeyInRange
  constructor
  · intro inside
    split_ifs at inside with short later earlier
    have same : key.take range_key.length = range_key :=
      le_antisymm (not_lt.mp later) (not_lt.mp earlier)
    refine ⟨key.drop range_key.length, ?_⟩
    conv_rhs => rw [← same, length_take, min_eq_left (not_lt.mp short)]
    exact (take_append_drop range_key.length key).symm
  · rintro ⟨rest, rfl⟩
    rw [if_neg (by simp), take_left, if_neg (lt_irrefl _), if_neg (lt_irrefl _)]

/-- What lies between two strings with a common front has that front. -/
theorem exists_append_of_between {α : Type} [LinearOrder α] {front a c b : List α}
    (low : front ++ a ≤ b) (high : b ≤ front ++ c) : ∃ rest, b = front ++ rest := by
  induction front generalizing b with
  | nil => exact ⟨b, rfl⟩
  | cons x front ih =>
    cases b with
    | nil => exact absurd low (not_le.mpr (nil_lt_cons _ _))
    | cons y b =>
      rw [← not_lt, cons_append, cons_lt_cons_iff, not_or, not_and] at low high
      obtain rfl : x = y := le_antisymm (not_lt.mp low.1) (not_lt.mp high.1)
      obtain ⟨rest, rfl⟩ := ih (not_lt.mp (low.2 rfl)) (not_lt.mp (high.2 rfl))
      exact ⟨rest, rfl⟩

/-- The range of `btree_key_in_range`. -/
def keysStartingWith (range_key : List (Fin 256)) : KeyRange (List (Fin 256)) where
  side := btreeKeyInRange range_key
  convex := by
    intro a b c low high first last
    obtain ⟨a', rfl⟩ := btreeKeyInRange_within.mp first
    obtain ⟨c', rfl⟩ := btreeKeyInRange_within.mp last
    exact btreeKeyInRange_within.mpr (exists_append_of_between low high)

/-! ## The searches -/

variable {κ : Type} [LinearOrder κ]

/-- The loop of `find_first_key_in_range_non_leaf`: the last key met that is not
before the range. The source's `i_end` is `stop - 1`. -/
def findFirstLoop (range : KeyRange κ) (keys : List (Sep κ)) :
    ℕ → ℕ → ℕ → Option ℕ → Option ℕ
  | 0, _, _, i_last_match => i_last_match
  | fuel + 1, i_start, stop, i_last_match =>
    if i_start < stop then
      let i_center := (i_start + stop - 1) / 2
      match keys[i_center]? with
      | none => i_last_match
      | some k =>
        if range.side k.key = .before then
          findFirstLoop range keys fuel (i_center + 1) stop i_last_match
        else findFirstLoop range keys fuel i_start i_center (some i_center)
    else i_last_match

/-- `find_next_rupdate_key` in a non-leaf: the index of the child to follow. -/
def rupdateChild (range : KeyRange κ) (marker : Option κ) (keys : List (Sep κ)) : ℕ :=
  match marker with
  | some last_key => (bsearchKeyLow (keys.map Sep.stuff) last_key .any .next).1
  | none => (findFirstLoop range keys (keys.length + 1) 0 keys.length none).getD keys.length

/-- The descent of `btree_raw_rupdate_low`. -/
def rupdateDescend (t : Tree κ) (range : KeyRange κ) (marker : Option κ) : ℕ → ℕ → Option ℕ
  | 0, _ => none
  | fuel + 1, id =>
    match t.nodes id with
    | none => none
    | some (.leaf ..) => some id
    | some (.nonleaf _ _ keys rightmost) =>
      rupdateDescend t range marker fuel
        (childAt keys rightmost (rupdateChild range marker keys))

/-- What `find_next_rupdate_key` finds in a leaf. -/
inductive NextKey (κ : Type)
  | found (e : Entry κ) (seqno : ℕ)
  | outOfRange
  | endOfLeaf

/-- `find_next_rupdate_key` in a leaf: the first key of the range, or the key
after the marker. The sequence number of the version is only taken over in the
first case; in the second it stays 0. -/
def findNextRupdateKey (range : KeyRange κ) (marker : Option κ) (entries : List (Entry κ)) :
    NextKey κ :=
  match marker with
  | none =>
    match entries.find? fun e => range.side e.key = .within with
    | some e => .found e e.seqno
    | none => .endOfLeaf
  | some last_key =>
    match entries[(bsearchKeyLow (entries.map Entry.stuff) last_key .any .next).1]? with
    | none => .endOfLeaf
    | some e => if range.side e.key = .within then .found e 0 else .outOfRange

/-- `btree_snap_seqno_in_snap`. -/
def btreeSnapSeqnoInSnap (snapshots : List ℕ) (seqno : ℕ) : Bool :=
  match snapshots.getLast? with
  | none => false
  | some last => decide (seqno ≤ last)

/-! ## The state -/

/-- What a range update is called with, and what its environment answers. -/
structure RangeUpdate (κ : Type) [LinearOrder κ] where
  range : KeyRange κ
  /-- The answer of `callback_func` for a key and its data: `none` leaves the
  object alone, no bytes keep its data. -/
  callback_func : κ → Data → Option Data
  /-- `is_nodes_available` for a number of nodes, by the number of keys offered
  so far. -/
  is_nodes_available : ℕ → ℕ → Bool
  /-- The sequence numbers that are drawn, one after another. -/
  seqno_alloc_cb : ℕ → Option ℕ
  increasing : ∀ {i j : ℕ}, i < j → ∀ m ∈ seqno_alloc_cb i, ∀ n ∈ seqno_alloc_cb j, m < n

/-- What comes next: a call descends, goes on in its leaf (after `count` keys,
the last answer being too large or not), or its key is written on its own. -/
inductive RupdatePhase (κ : Type)
  | descend
  | leaf (id count : ℕ) (too_big : Bool)
  | retry (key : κ) (data : Data)
  | finished
  | failed

/-- The state of a range update between two keys. The marker is the last key
found; it stays when the update is over, where the source unsets it. -/
structure RupdateState (κ : Type) where
  tree : Tree κ
  marker : Option κ
  phase : RupdatePhase κ
  objs_updated : ℕ
  /-- The sequence numbers drawn so far. -/
  drawn : ℕ
  /-- The keys and data that the callback was offered. -/
  offers : List (κ × Data)
  /-- The versions that got new data, and whether in their place. -/
  rewrites : List (Entry κ × Bool)

namespace RupdateState

/-- The state in which `_ZSRangeUpdate` makes its first call. -/
def start (t : Tree κ) : RupdateState κ := ⟨t, none, .descend, 0, 0, [], []⟩

variable (cfg : Config κ) (ru : RangeUpdate κ)

/-- The data of an object after the callback has answered. -/
def newData (data new : Data) : Data := if new = [] then data else new

/-- The nodes that `btree_rupdate_raw_leaf` asks for: those of the overflow data
before and after. -/
def requiredNodes (key : κ) (data new : Data) : ℕ :=
  (if cfg.bigObjectSize ≤ cfg.keylen key + data.length then data.length / cfg.ovdatasize + 1 else 0) +
  (if cfg.bigObjectSize ≤ cfg.keylen key + new.length then new.length / cfg.ovdatasize + 1 else 0)

/-- Whether the new data has to be written on its own: too many nodes have been
modified, or the leaf is too full for it. -/
def needsSpace (offered : ℕ) (entries : List (Entry κ)) (key : κ) (data new : Data)
    (in_snap : Bool) : Bool :=
  !ru.is_nodes_available offered (requiredNodes cfg key data new) ||
    btreeLeafIsFullIndex cfg entries key (newData data new).length (!in_snap)
      (btreeLeafFindKey entries key .any).1

/-- The end of one turn in `btree_rupdate_raw_leaf`: the new data goes to the
leaf, before the version that is there or in its place. -/
def rewrite (s : RupdateState κ) (id count next : ℕ) (entries : List (Entry κ)) (index : ℕ)
    (old : Entry κ) (data new : Data) (in_snap : Bool) : RupdateState κ :=
  if needsSpace cfg ru s.offers.length entries old.key data new in_snap then
    { s with phase := .retry old.key (newData data new) }
  else
    match ru.seqno_alloc_cb s.drawn with
    | none => { s with phase := .failed }
    | some seqno =>
      match btreeLeafInsertLow cfg s.tree entries old.key (newData data new) seqno false index
          (!in_snap) with
      | none => { s with phase := .failed }
      | some (t, changed) =>
        { s with
          tree := t.setNode id (.leaf next changed)
          phase := .leaf id (count + 1) false
          objs_updated := s.objs_updated + 1
          drawn := s.drawn + 1
          rewrites := s.rewrites ++ [(old, !in_snap)] }

/-- The callback is offered an object. -/
def offer (s : RupdateState κ) (id count next : ℕ) (entries : List (Entry κ)) (index : ℕ)
    (old : Entry κ) (data : Data) (in_snap : Bool) : RupdateState κ :=
  let offered := { s with offers := s.offers ++ [(old.key, data)] }
  match ru.callback_func old.key data with
  | none => { offered with phase := .leaf id (count + 1) false }
  | some new =>
    if BTREE_MAX_DATA_SIZE_SUPPORTED < new.length then
      { offered with phase := .leaf id (count + 1) true }
    else offered.rewrite cfg ru id count next entries index old data new in_snap

/-- One turn of the loop of `btree_rupdate_raw_leaf`. A call that found no key
unsets the marker, which ends the update. -/
def leafTurn (s : RupdateState κ) (id count next : ℕ) (too_big : Bool) (entries : List (Entry κ)) :
    RupdateState κ :=
  match findNextRupdateKey ru.range s.marker entries with
  | .outOfRange => { s with phase := if too_big then .failed else .finished }
  | .endOfLeaf =>
    { s with phase := if too_big then .failed else if count = 0 then .finished else .descend }
  | .found e seqno =>
    let marked := { s with marker := some e.key }
    if e.tombstone then { marked with phase := .leaf id (count + 1) too_big }
    else
      match entries[(btreeLeafFindKey entries e.key .any).1]?,
        (btreeLeafFindKey entries e.key .any).2 with
      | some old, true =>
        match getLeafDataNthKey cfg s.tree old with
        | some (.success, data) =>
          marked.offer cfg ru id count next entries (btreeLeafFindKey entries e.key .any).1
            old data (btreeSnapSeqnoInSnap s.tree.snapshots seqno)
        | _ => { marked with phase := .failed }
      | _, _ => { marked with phase := .failed }

/-- The version that a write finds in its leaf, and whether it replaces it. -/
def found (t : Tree κ) (obj : Obj κ) : Option (Entry κ × Bool) :=
  let entries := leafFor t obj.key
  let (index, found) := btreeLeafFindKey entries obj.key .any
  (entries[index]?).map fun old => (old, isUpdate t obj entries index found)

/-- The single update of `_ZSRangeUpdate`, for a key that its leaf had no room
for. It asserts that there is data. -/
def retryTurn (s : RupdateState κ) (key : κ) (data : Data) : RupdateState κ :=
  if data = [] then { s with phase := .failed }
  else
    match ru.seqno_alloc_cb s.drawn with
    | none => { s with phase := .failed }
    | some seqno =>
      match btreeRawWrite cfg s.tree ⟨key, data, seqno, false⟩ .update with
      | some (t, .success) =>
        { s with
          tree := t
          marker := some key
          phase := .descend
          objs_updated := s.objs_updated + 1
          drawn := s.drawn + 1
          rewrites := s.rewrites ++ (found s.tree ⟨key, data, seqno, false⟩).toList }
      | _ => { s with phase := .failed }

/-- One step of a range update. -/
def step (s : RupdateState κ) : RupdateState κ :=
  match s.phase with
  | .descend =>
    match rupdateDescend s.tree ru.range s.marker (s.tree.rootLevel + 1) s.tree.rootid with
    | some id => { s with phase := .leaf id 0 false }
    | none => { s with phase := .failed }
  | .leaf id count too_big =>
    match s.tree.nodes id with
    | some (.leaf next entries) => s.leafTurn cfg ru id count next too_big entries
    | _ => { s with phase := .failed }
  | .retry key data => s.retryTurn cfg ru key data
  | .finished => s
  | .failed => s

end RupdateState

end Zetascale.Btree
