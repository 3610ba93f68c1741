import Zetascale.Btree.LargeObjects
import Zetascale.Btree.LeafWrite
import Zetascale.Btree.Mput

/-!
# A batch of objects in one leaf

`btree_insert_keys_leaf` and `mput_update_allowed` of `btree/btree_raw.c`: the
loop over the objects of a batch, the place of each object in the leaf, and the
comparison callback that may refuse an object. Each turn of the loop is a record
of what it met, so that the callback's questions can be compared with the
object and with the live version of its key.
-/

namespace Zetascale.Btree

open List

/-- What the comparison callback is given. -/
structure Ask (κ : Type) where
  key : κ
  keylen : ℕ
  old : Option Data
  new : Data

/-- What `mput_update_allowed` returns, and what it asked the callback. -/
structure Verdict (κ : Type) where
  asked : Option (Ask κ)
  allowed : Bool
  status : MputStatus

/-- What one call of `btree_insert_keys_leaf` is given. -/
structure LeafBatch (κ : Type) where
  objs : List (κ × Data)
  /-- `W_DESC`: from the last object to the first. -/
  desc : Bool
  /-- `W_APPEND`: behind the last entry. -/
  append : Bool
  write_type : WriteType
  /-- `INSERT_TOMBSTONE`. -/
  tombstone : Bool
  /-- The callback, `none` for `mput_default_cmp_cb`. -/
  mput_cmp_cb : Option (Ask κ → Bool)
  /-- The sequence number that is drawn for the object of a turn. -/
  seqno_alloc_cb : ℕ → ℕ
  /-- `is_nodes_available` in a turn. -/
  nodesAvailable : ℕ → ℕ → Bool
  /-- The tombstone bit that stands behind the last entry header. -/
  gap : Bool

open LeafBatch

/-- How a turn of the loop goes on after the callback. -/
inductive TurnOutcome (κ : Type)
  | stopped (status : MputStatus)
  | fault
  | goesOn (t : Tree κ) (entries : List (Entry κ))

/-- Where a turn of the loop ends: the leaf is full, the object does or does not
exist against the write type, or the callback's verdict is in. -/
inductive TurnEnd (κ : Type)
  | full
  | vetoed
  | decided (verdict : Option (Verdict κ)) (outcome : TurnOutcome κ)

/-- One turn of the loop, from the leaf it finds. -/
structure Turn (κ : Type) where
  written : ℕ
  key : κ
  /-- The key length that is handed to `mput_update_allowed`. -/
  keylen : ℕ
  data : Data
  tree : Tree κ
  entries : List (Entry κ)
  index : ℕ
  ends : TurnEnd κ

/-- The status with which a failed read ends the loop. -/
def ReadStatus.mput : ReadStatus → MputStatus
  | .success => .success
  | .bufferTooSmall => .failure
  | .failure => .failure
  | .objectUnknown => .objectUnknown

section

variable {κ : Type} [LinearOrder κ] (cfg : Config κ)

/-- Asks the callback. -/
def askCallback (cmp : Ask κ → Bool) (ask : Ask κ) : Option (Verdict κ) :=
  some ⟨some ask, cmp ask, .success⟩

/-- `mput_update_allowed`. Whether the old data is in overflow nodes is decided
with the key length of the caller. -/
def mputUpdateAllowed (mput_cmp_cb : Option (Ask κ → Bool)) (t : Tree κ) (entries : List (Entry κ))
    (key : κ) (keylen : ℕ) (new : Data) (index : ℕ) (key_exists : Bool) : Option (Verdict κ) :=
  match mput_cmp_cb with
  | none => some ⟨none, true, .success⟩
  | some cmp =>
    if key_exists then
      match entries[index]? with
      | none => none
      | some e =>
        if cfg.bigObjectKd keylen e.datalen then
          match getLeafDataIndex cfg t e ⟨false, false, false⟩ 0 with
          | none => none
          | some answer =>
            if answer.status ≠ .success then some ⟨none, false, answer.status.mput⟩
            else answer.data.bind fun old => askCallback cmp ⟨key, keylen, some old, new⟩
        -- the data is taken to be in the leaf, to its full length
        else if e.big cfg then none
        else askCallback cmp ⟨key, keylen, some e.inleaf, new⟩
    else askCallback cmp ⟨key, keylen, none, new⟩

namespace LeafBatch

variable (batch : LeafBatch κ)

/-- The place of an object, whether its key was found there, and whether the
object replaces the version found. -/
def place (t : Tree κ) (entries : List (Entry κ)) (key : κ) : ℕ × Bool × Bool :=
  if batch.append then (entries.length, false, false)
  else
    let (index, found) := btreeLeafFindKey entries key .any
    (index, found, found && !batch.tombstone && isLeafKeyActive t entries index)

/-- The tombstone bit at an index of the entry headers. -/
def tombstonedAt (entries : List (Entry κ)) (index : ℕ) : Bool :=
  if index < entries.length then btreeLeafIsKeyTombstoned entries index else batch.gap

/-- The verdict on an object: nobody is asked about a tombstone, over a
tombstone, or behind the last entry. -/
def verdict (t : Tree κ) (entries : List (Entry κ)) (key : κ) (keylen : ℕ) (data : Data)
    (index : ℕ) (key_exists : Bool) : Option (Verdict κ) :=
  if batch.append || batch.tombstone || batch.tombstonedAt entries index then
    some ⟨none, true, .success⟩
  else mputUpdateAllowed cfg batch.mput_cmp_cb t entries key keylen data index key_exists

/-- Nodes that writing an object may need. -/
def requiredNodes (entries : List (Entry κ)) (key : κ) (data : Data) (index : ℕ)
    (key_exists : Bool) : ℕ :=
  let new := if cfg.bigObjectKd (cfg.keylen key) data.length then data.length / cfg.ovdatasize + 1
    else 0
  let old := match entries[index]?, key_exists with
    | some e, true => if e.big cfg then e.datalen / cfg.ovdatasize + 1 else 0
    | _, _ => 0
  1 + new + old

/-- Writes an object that is allowed. -/
def insertObj (t : Tree κ) (entries : List (Entry κ)) (written : ℕ) (key : κ) (data : Data)
    (index : ℕ) (key_exists is_update : Bool) : TurnOutcome κ :=
  if !batch.nodesAvailable written (requiredNodes cfg entries key data index key_exists) then
    .stopped .objectTooBig
  else if batch.seqno_alloc_cb written = 2 ^ 64 - 1 then .stopped .failure
  else
    match btreeLeafInsertLow cfg t entries key data (batch.seqno_alloc_cb written) batch.tombstone
        index is_update with
    | none => .fault
    | some (t', changed) => .goesOn t' changed

/-- What follows from a verdict. -/
def outcome (t : Tree κ) (entries : List (Entry κ)) (written : ℕ) (key : κ) (data : Data)
    (index : ℕ) (key_exists is_update : Bool) : Option (Verdict κ) → TurnOutcome κ
  | none => .fault
  | some verdict =>
    if verdict.allowed then
      batch.insertObj cfg t entries written key data index key_exists is_update
    else if verdict.status ≠ .success then .stopped verdict.status
    -- the object is skipped
    else .goesOn t entries

/-- The end of a turn, once the place of the object is known. -/
def turnEnd (t : Tree κ) (entries : List (Entry κ)) (written : ℕ) (key : κ) (keylen : ℕ)
    (data : Data) (index : ℕ) (found is_update : Bool) : TurnEnd κ :=
  let key_exists := found && !btreeLeafIsKeyTombstoned entries index
  if batch.write_type = .update ∧ key_exists = false ∨
      batch.write_type = .create ∧ key_exists = true then .vetoed
  else
    let verdict := batch.verdict cfg t entries key keylen data index key_exists
    .decided verdict (batch.outcome cfg t entries written key data index key_exists is_update verdict)

/-- The index of the object of a turn. -/
def idx (written : ℕ) : ℕ :=
  if batch.desc then batch.objs.length - 1 - written else written

/-- One turn of the loop. `start` is the place of the first object, when the
caller knows it. The key length that goes to the callback is that of the object
at `written`. -/
def turn (t : Tree κ) (entries : List (Entry κ)) (written : ℕ) (start : Option (ℕ × Bool × Bool)) :
    Option (Turn κ) := do
  let (key, data) ← batch.objs[batch.idx written]?
  let (other, _) ← batch.objs[written]?
  let (index, found, is_update) := start.getD (batch.place t entries key)
  let ends :=
    if start = none ∧ btreeLeafIsFullIndex cfg entries key data.length is_update index then .full
    else batch.turnEnd cfg t entries written key (cfg.keylen other) data index found is_update
  some ⟨written, key, cfg.keylen other, data, t, entries, index, ends⟩

/-- The turns of the loop of `btree_insert_keys_leaf`. -/
def turns : ℕ → Tree κ → List (Entry κ) → ℕ → Option (ℕ × Bool × Bool) → List (Turn κ)
  | 0, _, _, _, _ => []
  | left + 1, t, entries, written, start =>
    match batch.turn cfg t entries written start with
    | none => []
    | some turn =>
      turn :: match turn.ends with
        | .decided _ (.goesOn t' entries') => turns left t' entries' (written + 1) none
        | _ => []

/-- `btree_insert_keys_leaf`: all its turns. -/
def btreeInsertKeysLeaf (t : Tree κ) (entries : List (Entry κ))
    (start : Option (ℕ × Bool × Bool)) : List (Turn κ) :=
  batch.turns cfg batch.objs.length t entries 0 start

end LeafBatch

/-! ## What the callback is for -/

/-- The live version of a key in a leaf. -/
def liveIn (entries : List (Entry κ)) (key : κ) : Option (Entry κ) :=
  (latestIn entries key).filter fun e => !e.tombstone

/-- The data of an entry can be read. -/
def Entry.Reads (t : Tree κ) (e : Entry κ) (data : Data) : Prop :=
  getLeafDataIndex cfg t e ⟨false, false, false⟩ 0 = some ⟨.success, some data, data.length⟩

/-- The verdict of a turn and what follows from it are right: an object is allowed
exactly when its key has no live version or the callback allows it, asked about
the object's own key, key length and data and the data of the live version; an
object that is allowed and does not stop the loop is written; and an object that
is refused is only skipped, at an entry of its own key. -/
structure Turn.Right (batch : LeafBatch κ) (turn : Turn κ) (verdict : Verdict κ)
    (outcome : TurnOutcome κ) : Prop where
  allowed : verdict.allowed = true ↔ liveIn turn.entries turn.key = none ∨
    ∀ cmp, batch.mput_cmp_cb = some cmp → ∃ e old, liveIn turn.entries turn.key = some e ∧
      e.Reads cfg turn.tree old ∧ cmp ⟨turn.key, cfg.keylen turn.key, some old, turn.data⟩ = true
  asked : ∀ e, liveIn turn.entries turn.key = some e → batch.mput_cmp_cb ≠ none →
    ∃ old, e.Reads cfg turn.tree old ∧
      verdict.asked = some ⟨turn.key, cfg.keylen turn.key, some old, turn.data⟩
  written : verdict.allowed = true → ∀ t' changed, outcome = .goesOn t' changed →
    LeafPut cfg ⟨turn.key, turn.data, batch.seqno_alloc_cb turn.written, batch.tombstone⟩
        turn.entries changed ∧
      ∃ ptr, Entry.make cfg turn.key (batch.seqno_alloc_cb turn.written) batch.tombstone turn.data
        ptr ∈ changed
  skipped : verdict.allowed = false → outcome = .goesOn turn.tree turn.entries ∧
    ∃ e, turn.entries[turn.index]? = some e ∧ e.key = turn.key

/-- The condition for it: the callback is not passed over where the key has a live
version, the key length it gets is the object's own, and where the key has none
the callback is not asked, or allows the object. -/
structure Turn.Met (batch : LeafBatch κ) (turn : Turn κ) (cmp : Ask κ → Bool) : Prop where
  live : liveIn turn.entries turn.key ≠ none →
    batch.tombstone = false ∧ turn.keylen = cfg.keylen turn.key
  absent : liveIn turn.entries turn.key = none → batch.append = true ∨ batch.tombstone = true ∨
    batch.tombstonedAt turn.entries turn.index = true ∨
    cmp ⟨turn.key, turn.keylen, none, turn.data⟩ = true

namespace LeafBatch

/-- What a batch is: the sequence numbers grow from turn to turn, up to the failed
call that ends the loop, and objects that go behind the last entry come in the
order of their keys. -/
structure Ordered (batch : LeafBatch κ) : Prop where
  numbers : ∀ i j, i < j → j + 1 < batch.objs.length →
    batch.seqno_alloc_cb i ≠ 2 ^ 64 - 1 → batch.seqno_alloc_cb i < batch.seqno_alloc_cb j
  keys : batch.append = true → ∀ i j, i < j → j < batch.objs.length →
    ∀ o o', batch.objs[batch.idx i]? = some o → batch.objs[batch.idx j]? = some o' → o.1 < o'.1

/-- The place that the caller gives is that of the object. -/
def Started (batch : LeafBatch κ) (entries : List (Entry κ)) (written : ℕ) :
    ℕ × Bool × Bool → Prop
  | (index, found, is_update) => batch.append = false ∧
      ∀ o, batch.objs[batch.idx written]? = some o →
        index = (btreeLeafFindKey entries o.1 .any).1 ∧
        found = ((btreeLeafFindKey entries o.1 .any).2 && !btreeLeafIsKeyTombstoned entries index) ∧
        (is_update = true → (btreeLeafFindKey entries o.1 .any).2 = true)

/-- What a turn may count on: the leaf is in order, the numbers still to come are
new, what is appended lies behind the leaf, and a place that the caller gives is
that of the object. -/
structure Ready (batch : LeafBatch κ) (entries : List (Entry κ)) (written : ℕ)
    (start : Option (ℕ × Bool × Bool)) : Prop where
  sorted : SortedBy Entry.pos entries
  fresh : ∀ j, written ≤ j → j + 1 < batch.objs.length →
    ∀ e ∈ entries, e.seqno < batch.seqno_alloc_cb j
  beyond : batch.append = true → ∀ j, written ≤ j → j < batch.objs.length →
    ∀ o, batch.objs[batch.idx j]? = some o → ∀ e ∈ entries, e.key < o.1
  started : ∀ place, start = some place → batch.Started entries written place

end LeafBatch

end

section

variable {κ : Type} [LinearOrder κ] {cfg : Config κ} {batch : LeafBatch κ} {t t' : Tree κ}
  {entries changed : List (Entry κ)} {key : κ} {keylen written index : ℕ} {data : Data}
  {found is_update : Bool} {start : Option (ℕ × Bool × Bool)} {turn : Turn κ}

/-! ## The place of an object -/

/-- What the place of an object is good for: it tells whether the key has a live
version, it shows it, and the object can be put there. -/
structure Placed (cfg : Config κ) (entries : List (Entry κ)) (key : κ) (index : ℕ)
    (found is_update : Bool) : Prop where
  isLive : (found && !btreeLeafIsKeyTombstoned entries index) = (liveIn entries key).isSome
  live : ∀ e, liveIn entries key = some e → entries[index]? = some e
  put : ∀ t t' data seqno tombstone changed,
    btreeLeafInsertLow cfg t entries key data seqno tombstone index is_update = some (t', changed) →
      LeafPut cfg ⟨key, data, seqno, tombstone⟩ entries changed ∧
        ∃ ptr, Entry.make cfg key seqno tombstone data ptr ∈ changed

/-- The place that the search finds, whether or not a tombstone counts as found. -/
theorem placed_of_find (sorted : SortedBy Entry.pos entries)
    (indexEq : index = (btreeLeafFindKey entries key .any).1)
    (foundEq : (found && !btreeLeafIsKeyTombstoned entries index) =
      ((btreeLeafFindKey entries key .any).2 && !btreeLeafIsKeyTombstoned entries index))
    (update : is_update = true → (btreeLeafFindKey entries key .any).2 = true) :
    Placed cfg entries key index found is_update := by
  obtain ⟨isSome, stored⟩ := btreeLeafFindKey_latest sorted key
  rw [← indexEq] at stored
  refine ⟨?_, ?_, ?_⟩
  · rw [foundEq, isSome]
    unfold liveIn
    cases latest : latestIn entries key with
    | none => rfl
    | some e => simp [btreeLeafIsKeyTombstoned, stored e latest, Option.isSome_filter]
  · intro e live
    exact stored e (Option.filter_eq_some_iff.mp live).1
  · intro t t' data seqno tombstone changed inserted
    rw [indexEq] at inserted
    have present : is_update = true → (latestIn entries key).isSome = true :=
      fun updates => isSome ▸ update updates
    obtain ⟨ptr, -, updated⟩ := btreeLeafInsertLow_some inserted
    obtain ⟨put, latest⟩ := btreeLeafUpdateKey_put ⟨key, data, seqno, tombstone⟩ sorted present updated
    exact ⟨put, ptr, (visible_some latest).1⟩

theorem liveIn_above (above : ∀ e ∈ entries, e.key < key) : liveIn entries key = none := by
  have noVersion : latestIn entries key = none :=
    visible_eq_none.mpr fun e mem same => absurd same (above e mem).ne
  rw [liveIn, noVersion]
  rfl

theorem placed_of_append (above : ∀ e ∈ entries, e.key < key) :
    Placed cfg entries key entries.length false false := by
  have absent := liveIn_above above
  refine ⟨by rw [absent]; rfl, by simp [absent], ?_⟩
  intro t t' data seqno tombstone changed inserted
  obtain ⟨ptr, -, updated⟩ := btreeLeafInsertLow_some inserted
  have inserts := btreeLeafUpdateKey_insert cfg entries [] (Entry.make cfg key seqno tombstone data ptr)
  rw [append_nil] at inserts
  rw [inserts] at updated
  split_ifs at updated
  cases updated
  have put : LeafPut cfg ⟨key, data, seqno, tombstone⟩ (entries ++ [])
      (entries ++ [Entry.make cfg key seqno tombstone data ptr]) :=
    .insert above (forall_mem_nil _)
  rw [append_nil] at put
  exact ⟨put, ptr, mem_append_cons_self⟩

theorem LeafBatch.Ready.placed (ready : batch.Ready entries written start) {o : κ × Data}
    (inBatch : written < batch.objs.length) (object : batch.objs[batch.idx written]? = some o)
    (here : start.getD (batch.place t entries o.1) = (index, found, is_update)) :
    Placed cfg entries o.1 index found is_update := by
  cases start with
  | some given =>
    obtain rfl : given = (index, found, is_update) := here
    obtain ⟨-, started⟩ := ready.started _ rfl
    obtain ⟨indexEq, foundEq, update⟩ := started o object
    refine placed_of_find ready.sorted indexEq ?_ update
    rw [foundEq, Bool.and_assoc, Bool.and_self]
  | none =>
    unfold place at here
    split_ifs at here with appends
    · cases here
      exact placed_of_append (ready.beyond appends written le_rfl inBatch o object)
    · cases here
      exact placed_of_find ready.sorted rfl rfl (fun update => by
        simp only [Bool.and_eq_true] at update
        exact update.1.1)

/-! ## One turn -/

theorem LeafBatch.turn_some (taken : batch.turn cfg t entries written start = some turn) :
    ∃ o index found is_update, written < batch.objs.length ∧
      batch.objs[batch.idx written]? = some o ∧
      start.getD (batch.place t entries o.1) = (index, found, is_update) ∧
      turn.written = written ∧ turn.key = o.1 ∧ turn.data = o.2 ∧ turn.tree = t ∧
      turn.entries = entries ∧ turn.index = index ∧ (turn.ends = .full ∨ turn.ends =
        batch.turnEnd cfg t entries written o.1 turn.keylen o.2 index found is_update) := by
  obtain ⟨o, object, taken⟩ := Option.bind_eq_some_iff.mp taken
  obtain ⟨other, read, taken⟩ := Option.bind_eq_some_iff.mp taken
  obtain ⟨inBatch, -⟩ := List.getElem?_eq_some_iff.mp read
  refine ⟨o, _, _, _, inBatch, object, rfl, ?_⟩
  cases taken
  refine ⟨rfl, rfl, rfl, rfl, rfl, rfl, ?_⟩
  split_ifs
  · exact .inl rfl
  · exact .inr rfl

omit [LinearOrder κ] in
/-- With the key length of the object, the callback is asked about the data of the
live version. -/
theorem mputUpdateAllowed_live {cmp : Ask κ → Bool} {e : Entry κ} {old : Data}
    (stored : entries[index]? = some e) (same : e.key = key) (reads : e.Reads cfg t old) :
    mputUpdateAllowed cfg (some cmp) t entries key (cfg.keylen key) data index true =
      askCallback cmp ⟨key, cfg.keylen key, some old, data⟩ := by
  subst same
  have big : cfg.bigObjectKd (cfg.keylen e.key) e.datalen = e.big cfg := rfl
  simp only [mputUpdateAllowed, if_true, stored, big]
  split_ifs with isBig
  · rw [reads]
    simp
  · unfold Entry.Reads getLeafDataIndex indexData at reads
    simp only [isBig, Bool.false_eq_true, false_or, false_and, if_false, Option.some.injEq,
      ReadAnswer.mk.injEq] at reads
    rw [reads.2.1]

omit [LinearOrder κ] in
theorem mputUpdateAllowed_keylen {cb : Option (Ask κ → Bool)} {key_exists : Bool}
    {verdict : Verdict κ} {ask : Ask κ}
    (decided : mputUpdateAllowed cfg cb t entries key keylen data index key_exists = some verdict)
    (asked : verdict.asked = some ask) : ask.keylen = keylen := by
  have ofAsk : ∀ (cmp : Ask κ → Bool) old,
      askCallback cmp ⟨key, keylen, old, data⟩ = some verdict → ask.keylen = keylen := by
    intro cmp old called
    cases called
    cases asked
    rfl
  unfold mputUpdateAllowed at decided
  cases cb with
  | none =>
    cases decided
    cases asked
  | some cmp =>
    dsimp only at decided
    split_ifs at decided
    · split at decided
      · cases decided
      · split_ifs at decided
        · split at decided
          · cases decided
          · split_ifs at decided
            · cases decided
              cases asked
            · obtain ⟨old, -, called⟩ := Option.bind_eq_some_iff.mp decided
              exact ofAsk cmp _ called
        · exact ofAsk cmp _ decided
    · exact ofAsk cmp _ decided

/-- A decided turn: its place, its verdict and what follows from it. -/
structure Turn.Decided (cfg : Config κ) (batch : LeafBatch κ) (turn : Turn κ)
    (verdict : Option (Verdict κ)) (outcome : TurnOutcome κ) : Prop where
  place : ∃ found is_update, Placed cfg turn.entries turn.key turn.index found is_update ∧
    outcome = batch.outcome cfg turn.tree turn.entries turn.written turn.key turn.data turn.index
      (liveIn turn.entries turn.key).isSome is_update verdict
  verdict_eq : verdict = batch.verdict cfg turn.tree turn.entries turn.key turn.keylen turn.data
    turn.index (liveIn turn.entries turn.key).isSome
  appended : batch.append = true → liveIn turn.entries turn.key = none

variable {verdict : Option (Verdict κ)} {outcome : TurnOutcome κ} {cmp : Ask κ → Bool}

theorem LeafBatch.Ready.decided (ready : batch.Ready entries written start)
    (taken : batch.turn cfg t entries written start = some turn)
    (ends : turn.ends = .decided verdict outcome) : turn.Decided cfg batch verdict outcome := by
  obtain ⟨o, index, found, is_update, inBatch, object, here, writtenEq, keyEq, dataEq, treeEq, entriesEq,
    sameIndex, isFull | isEnd⟩ := turn_some taken
  · cases isFull.symm.trans ends
  have placed : Placed cfg entries o.1 index found is_update := ready.placed inBatch object here
  rw [isEnd] at ends
  simp only [turnEnd] at ends
  rw [placed.isLive] at ends
  split_ifs at ends
  cases ends
  rw [← entriesEq, ← keyEq, ← sameIndex] at placed
  constructor
  · refine ⟨found, is_update, placed, ?_⟩
    rw [writtenEq, keyEq, dataEq, treeEq, entriesEq, sameIndex]
  · rw [keyEq, dataEq, treeEq, entriesEq, sameIndex]
  · intro appends
    rw [entriesEq, keyEq]
    exact liveIn_above (ready.beyond appends written le_rfl inBatch o object)

/-- What a decided turn writes or skips does not depend on the callback. -/
theorem Turn.Decided.writes {verdict : Verdict κ}
    (decided : turn.Decided cfg batch (some verdict) outcome) (allowed : verdict.allowed = true)
    (goesOn : outcome = .goesOn t' changed) : batch.seqno_alloc_cb turn.written ≠ 2 ^ 64 - 1 ∧
    LeafPut cfg ⟨turn.key, turn.data, batch.seqno_alloc_cb turn.written, batch.tombstone⟩
        turn.entries changed ∧
      ∃ ptr, Entry.make cfg turn.key (batch.seqno_alloc_cb turn.written) batch.tombstone turn.data
        ptr ∈ changed := by
  obtain ⟨found, is_update, placed, outcomeEq⟩ := decided.place
  rw [goesOn] at outcomeEq
  simp only [LeafBatch.outcome, allowed, if_true] at outcomeEq
  unfold insertObj at outcomeEq
  split_ifs at outcomeEq with unavailable failed
  split at outcomeEq
  · cases outcomeEq
  · rename_i inserted
    cases outcomeEq
    exact ⟨failed, placed.put _ _ _ _ _ _ inserted⟩

section

variable (decided : turn.Decided cfg batch verdict outcome) (callback : batch.mput_cmp_cb = some cmp)

include decided callback

theorem Turn.Decided.live {e : Entry κ} (isLive : liveIn turn.entries turn.key = some e)
    (own : batch.tombstone = false) :
    verdict = mputUpdateAllowed cfg (some cmp) turn.tree turn.entries turn.key turn.keylen turn.data
      turn.index true := by
  obtain ⟨found, is_update, placed, -⟩ := decided.place
  have notAppended : batch.append = false := by
    by_contra appends
    cases (decided.appended (Bool.not_eq_false _ ▸ appends)).symm.trans isLive
  have stored := placed.live e isLive
  have inLeaf : turn.index < turn.entries.length := (List.getElem?_eq_some_iff.mp stored).1
  have alive : e.tombstone = false := by
    simpa using (Option.filter_eq_some_iff.mp isLive).2
  have notTombstoned : batch.tombstonedAt turn.entries turn.index = false := by
    simp only [LeafBatch.tombstonedAt, inLeaf, if_true, btreeLeafIsKeyTombstoned, stored, alive]
  rw [decided.verdict_eq]
  simp [LeafBatch.verdict, notAppended, own, notTombstoned, callback, isLive]

theorem Turn.Decided.absent (isAbsent : liveIn turn.entries turn.key = none) :
    ∃ asked, verdict = some ⟨asked, batch.append || batch.tombstone ||
      batch.tombstonedAt turn.entries turn.index ||
      cmp ⟨turn.key, turn.keylen, none, turn.data⟩, .success⟩ := by
  rw [decided.verdict_eq, isAbsent]
  unfold LeafBatch.verdict
  split_ifs with passed
  · exact ⟨none, by rw [passed, Bool.true_or]⟩
  · rw [callback]
    refine ⟨some ⟨turn.key, turn.keylen, none, turn.data⟩, ?_⟩
    rw [Bool.not_eq_true] at passed
    rw [passed, Bool.false_or]
    rfl

theorem Turn.Decided.right_iff
    (readable : ∀ e, liveIn turn.entries turn.key = some e → ∃ old, e.Reads cfg turn.tree old) :
    (∃ v, verdict = some v ∧ turn.Right cfg batch v outcome) ↔ turn.Met cfg batch cmp := by
  constructor
  · rintro ⟨v, rfl, right⟩
    constructor
    · intro isLive
      obtain ⟨e, isLive⟩ := Option.ne_none_iff_exists'.mp isLive
      obtain ⟨old, -, asked⟩ := right.asked e isLive (by simp [callback])
      have own : batch.tombstone = false := by
        by_contra tombstones
        have passed := decided.verdict_eq
        rw [Bool.not_eq_false] at tombstones
        simp only [verdict, tombstones, Bool.or_true, Bool.true_or, if_true] at passed
        cases passed
        cases asked
      exact ⟨own, (mputUpdateAllowed_keylen (decided.live callback isLive own).symm asked).symm⟩
    · intro isAbsent
      obtain ⟨asked, verdictEq⟩ := decided.absent callback isAbsent
      have allowed := right.allowed.mpr (.inl isAbsent)
      cases verdictEq
      simpa only [Bool.or_eq_true, or_assoc] using allowed
  · intro met
    cases isLive : liveIn turn.entries turn.key with
    | none =>
      obtain ⟨asked, rfl⟩ := decided.absent callback isLive
      have allowed := met.absent isLive
      simp only [← Bool.or_eq_true, ← Bool.or_assoc] at allowed
      refine ⟨_, rfl, ?_, ?_, ?_, ?_⟩
      · simp [allowed, isLive]
      · intro e isSome
        cases isLive.symm.trans isSome
      · intro _ t' changed goesOn
        exact (decided.writes allowed goesOn).2
      · intro refused
        cases allowed.symm.trans refused
    | some e =>
      obtain ⟨own, sameLength⟩ := met.live (by simp [isLive])
      obtain ⟨old, reads⟩ := readable e isLive
      obtain ⟨found, is_update, placed, outcomeEq⟩ := decided.place
      have stored := placed.live e isLive
      have sameKey : e.key = turn.key := by
        have latest := (Option.filter_eq_some_iff.mp isLive).1
        exact (visible_some latest).2.1
      have verdictEq := decided.live callback isLive own
      rw [sameLength, mputUpdateAllowed_live stored sameKey reads] at verdictEq
      subst verdictEq
      refine ⟨_, rfl, ?_, ?_, ?_, ?_⟩
      · constructor
        · intro allowed
          refine .inr fun cmp' callback' => ⟨e, old, isLive, reads, ?_⟩
          cases callback.symm.trans callback'
          exact allowed
        · rintro (isNone | asked)
          · cases isLive.symm.trans isNone
          · obtain ⟨e', old', isLive', reads', allowed⟩ := asked cmp callback
            cases isLive.symm.trans isLive'
            rw [Entry.Reads, reads] at reads'
            cases reads'
            exact allowed
      · intro e' isLive' _
        cases isLive.symm.trans isLive'
        exact ⟨old, reads, rfl⟩
      · intro allowed t' changed goesOn
        exact (decided.writes allowed goesOn).2
      · intro refused
        refine ⟨?_, e, stored, sameKey⟩
        rw [outcomeEq]
        unfold askCallback LeafBatch.outcome
        dsimp only at refused ⊢
        rw [refused]
        rfl

end

theorem Turn.Decided.right_of_default (decided : turn.Decided cfg batch verdict outcome)
    (noCallback : batch.mput_cmp_cb = none) :
    ∃ v, verdict = some v ∧ turn.Right cfg batch v outcome := by
  have passed : verdict = some ⟨none, true, .success⟩ := by
    rw [decided.verdict_eq, LeafBatch.verdict, noCallback]
    exact ite_self _
  subst passed
  refine ⟨_, rfl, ?_, ?_, ?_, ?_⟩
  · simp [noCallback]
  · intro e _ callback
    exact absurd noCallback callback
  · exact fun allowed t' changed goesOn => (decided.writes allowed goesOn).2
  · exact nofun

/-! ## All turns -/

theorem LeafBatch.Ready.next (ordered : batch.Ordered) (ready : batch.Ready entries written start)
    (taken : batch.turn cfg t entries written start = some turn)
    (ends : turn.ends = .decided verdict (.goesOn t' changed))
    (more : written + 1 < batch.objs.length) : batch.Ready changed (written + 1) none := by
  have decided := ready.decided taken ends
  obtain ⟨o, _, _, _, inBatch, object, -, writtenEq, keyEq, -, -, entriesEq, -, -⟩ := turn_some taken
  cases verdict with
  | none =>
    obtain ⟨_, _, -, outcome⟩ := decided.place
    cases outcome
  | some v =>
    cases allowed : v.allowed with
    | false =>
      -- the object is skipped, and the leaf stays as it is
      obtain ⟨_, _, -, outcome⟩ := decided.place
      simp only [LeafBatch.outcome, allowed, Bool.false_eq_true, if_false] at outcome
      split_ifs at outcome
      cases outcome
      rw [entriesEq]
      refine ⟨ready.sorted, ?_, ?_, nofun⟩
      · exact fun j le less => ready.fresh j (by omega) less
      · exact fun appends j le less => ready.beyond appends j (by omega) less
    | true =>
      obtain ⟨drawn, put, -⟩ := decided.writes allowed rfl
      rw [writtenEq, keyEq, entriesEq] at put
      rw [writtenEq] at drawn
      have newest := ready.fresh written le_rfl more
      refine ⟨?_, ?_, ?_, nofun⟩
      · have between : Between Entry.pos ⊥ ⊤ entries :=
          ⟨ready.sorted, fun _ _ => WithBot.bot_lt_coe _, fun _ _ => le_top⟩
        exact (put.between between newest (WithBot.bot_lt_coe _) le_top).sorted
      · intro j le less
        exact put.forall_mem (ready.fresh j (by omega) less) fun _ =>
          ordered.numbers written j (by omega) less drawn
      · intro appends j le less o' object'
        exact put.forall_mem (ready.beyond appends j (by omega) less o' object') fun _ =>
          ordered.keys appends written j (by omega) less o o' object object'

theorem LeafBatch.Ready.turns (ordered : batch.Ordered) (left : ℕ)
    (ready : batch.Ready entries written start) :
    ∀ turn ∈ batch.turns cfg left t entries written start, ∃ t entries written start,
      batch.Ready entries written start ∧ batch.turn cfg t entries written start = some turn := by
  induction left generalizing t entries written start with
  | zero => exact forall_mem_nil _
  | succ left ih =>
    intro turn mem
    unfold turns at mem
    cases taken : batch.turn cfg t entries written start with
    | none =>
      rw [taken] at mem
      cases mem
    | some first =>
      rw [taken] at mem
      rcases mem_cons.mp mem with rfl | later
      · exact ⟨t, entries, written, start, ready, taken⟩
      · cases ends : first.ends with
        | full | vetoed => simp [ends] at later
        | decided verdict outcome =>
          cases outcome with
          | stopped | fault => simp [ends] at later
          | goesOn t' changed =>
            simp only [ends] at later
            by_cases more : written + 1 < batch.objs.length
            · exact ih (ready.next ordered taken ends more) turn later
            · -- the batch is at its end
              cases left with
              | zero => cases later
              | succ left =>
                unfold turns at later
                simp [LeafBatch.turn, getElem?_eq_none (not_lt.mp more)] at later

/-- In every run over a leaf, a turn that gets to the callback treats its object
rightly exactly under the condition: the callback is not passed over or given
another key length where the key has a live version, and does not refuse the object
where the key has none. -/
theorem batch_turn_right_iff (cfg : Config κ) (batch : LeafBatch κ) (t : Tree κ)
    (entries : List (Entry κ)) (start : Option (ℕ × Bool × Bool)) (ordered : batch.Ordered)
    (ready : batch.Ready entries 0 start) (turn : Turn κ)
    (mem : turn ∈ batch.btreeInsertKeysLeaf cfg t entries start) (verdict : Option (Verdict κ))
    (outcome : TurnOutcome κ) (ends : turn.ends = .decided verdict outcome)
    (readable : ∀ e, liveIn turn.entries turn.key = some e → ∃ old, e.Reads cfg turn.tree old) :
    (∃ v, verdict = some v ∧ turn.Right cfg batch v outcome) ↔
      ∀ cmp, batch.mput_cmp_cb = some cmp → turn.Met cfg batch cmp := by
  obtain ⟨t, entries, written, start, ready, taken⟩ := ready.turns ordered _ turn mem
  have decided := ready.decided taken ends
  cases callback : batch.mput_cmp_cb with
  | none =>
    simp [decided.right_of_default callback]
  | some cmp =>
    rw [decided.right_iff callback readable]
    simp

end

/-- A batch of writes with a callback. -/
def callbackBatch (objs : List (ℕ × Data)) (desc : Bool) (cmp : Ask ℕ → Bool) : LeafBatch ℕ where
  objs := objs
  desc := desc
  append := false
  write_type := .set
  tombstone := false
  mput_cmp_cb := some cmp
  seqno_alloc_cb := fun written => 10 + written
  nodesAvailable := fun _ _ => true
  gap := false

/-- A leaf with one object. -/
def oneObject : List (Entry ℕ) := [⟨2, 5, false, 1, 0, [7]⟩]

/-- A leaf with two objects. -/
def twoObjects : List (Entry ℕ) := [⟨2, 5, false, 1, 0, [7]⟩, ⟨3, 6, false, 1, 0, [8]⟩]

/-- New data for both, of which the callback allows only the second. -/
def secondAllowed : LeafBatch ℕ :=
  callbackBatch [(2, [9]), (3, [9])] false fun ask => ask.old == some [8]

/-- The first object is skipped, the second one exchanged, and the callback sees both. -/
theorem batch_turn_right_for_a_skip : ∃ first second,
    secondAllowed.btreeInsertKeysLeaf sampleTree .init twoObjects none = [first, second] ∧
    (∃ v outcome, first.ends = .decided (some v) outcome ∧ v.allowed = false ∧
      first.Right sampleTree secondAllowed v outcome) ∧
    ∃ v outcome, second.ends = .decided (some v) outcome ∧ v.allowed = true ∧
      second.Right sampleTree secondAllowed v outcome := by
  have ordered : secondAllowed.Ordered :=
    ⟨fun i j less more => absurd (show j + 1 < 2 from more) (by omega), nofun⟩
  have ready : secondAllowed.Ready twoObjects 0 none := by
    refine ⟨pairwise_pair.mpr (by decide), fun j _ more => ?_, fun appends => (nomatch appends), nofun⟩
    obtain rfl : j = 0 := by have : j + 1 < 2 := more; omega
    decide
  have right := batch_turn_right_iff sampleTree secondAllowed .init twoObjects none ordered ready
  refine ⟨_, _, rfl, ?_, ?_⟩
  · obtain ⟨v, decided, right⟩ := (right _ mem_cons_self _ _ rfl
      fun e isLive => ⟨[7], by cases isLive; rfl⟩).mpr fun cmp _ => ⟨fun _ => ⟨rfl, rfl⟩, nofun⟩
    cases decided
    exact ⟨_, _, rfl, rfl, right⟩
  · obtain ⟨v, decided, right⟩ := (right _ (mem_cons_of_mem _ mem_cons_self) _ _ rfl
      fun e isLive => ⟨[8], by cases isLive; rfl⟩).mpr fun cmp _ => ⟨fun _ => ⟨rfl, rfl⟩, nofun⟩
    cases decided
    exact ⟨_, _, rfl, rfl, right⟩

/-- In a descending batch the callback gets the key length of another object, and an
object whose key is new is left out because the callback refuses it. -/
theorem callback_misled :
    (∃ turn ∈ (callbackBatch [(1, [8]), (2, [9])] true fun ask => ask.keylen == 2).btreeInsertKeysLeaf
        sampleTree .init oneObject none,
      ∃ verdict outcome, turn.ends = .decided verdict outcome ∧ ¬ ∃ v, verdict = some v ∧
        turn.Right sampleTree (callbackBatch [(1, [8]), (2, [9])] true fun ask => ask.keylen == 2) v
          outcome) ∧
    ∃ turn ∈ (callbackBatch [(1, [8])] false fun _ => false).btreeInsertKeysLeaf sampleTree .init
        oneObject none,
      ∃ verdict outcome, turn.ends = .decided verdict outcome ∧ ¬ ∃ v, verdict = some v ∧
        turn.Right sampleTree (callbackBatch [(1, [8])] false fun _ => false) v outcome := by
  constructor
  · refine ⟨_, mem_cons_self, _, _, rfl, ?_⟩
    rintro ⟨v, decided, right⟩
    obtain ⟨old, -, asked⟩ := right.asked ⟨2, 5, false, 1, 0, [7]⟩ rfl nofun
    cases decided
    injection asked with ask
    have sameLength : (1 : ℕ) = 2 := congrArg Ask.keylen ask
    cases sameLength
  · refine ⟨_, mem_cons_self, _, _, rfl, ?_⟩
    rintro ⟨v, decided, right⟩
    have allowed := right.allowed.mpr (.inl rfl)
    cases decided
    cases allowed

end Zetascale.Btree
