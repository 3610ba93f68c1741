import Zetascale.Lib.Machine
import Zetascale.Btree.Ops

/-!
# Histories of a tree

A history is a list of calls: writes, deletes, and the creation and deletion of
snapshots. `Store` is what a tree is for: a map from keys to data, and a copy of
it for every snapshot. A history whose calls may all be made runs through, its
statuses are those of the store, and every lookup, of the active container or of
a snapshot, returns what the store has.
-/

namespace Zetascale.Btree

open Function List Option Machine

/-- A call. All but the deletion of a snapshot draw a sequence number. -/
inductive Op (κ : Type)
  | write (key : κ) (data : Data) (seqno : ℕ) (write_type : WriteType)
  | delete (key : κ) (seqno : ℕ)
  | snapCreate (seqno : ℕ)
  | snapDelete (seqno : ℕ)

/-- The sequence number that a call draws. -/
def Op.seqno {κ : Type} : Op κ → Option ℕ
  | .write _ _ seqno _ => some seqno
  | .delete _ seqno => some seqno
  | .snapCreate seqno => some seqno
  | .snapDelete _ => none

/-- The state between two calls: the tree, the last sequence number drawn and
the statuses returned so far. -/
structure Session (κ : Type) where
  tree : Tree κ
  last : ℕ
  statuses : List Status

/-- A new tree. -/
def Session.init {κ : Type} : Session κ := ⟨Tree.init, 0, []⟩

/-- What a tree is for: the data of the keys, now and at each snapshot. -/
structure Store (κ : Type) where
  active : κ → Option Data
  snapshots : List (ℕ × (κ → Option Data))

open Store

/-- No keys and no snapshots. -/
def Store.init {κ : Type} : Store κ := ⟨fun _ => none, []⟩

section

variable {κ : Type} [LinearOrder κ]

/-- One call to the tree. -/
def Op.apply (cfg : Config κ) (t : Tree κ) : Op κ → Option (Tree κ × Status)
  | .write key data seqno write_type => btreeRawWrite cfg t ⟨key, data, seqno, false⟩ write_type
  | .delete key seqno => btreeRawDelete cfg t key seqno
  | .snapCreate seqno => some (btreeSnapCreateMeta cfg t seqno).swap
  | .snapDelete seqno => some (btreeSnapDeleteMeta t seqno).swap

/-- One call of a history. -/
def Session.step (cfg : Config κ) (s : Session κ) (op : Op κ) : Option (Session κ) :=
  (op.apply cfg s.tree).map fun result =>
    ⟨result.1, op.seqno.getD s.last, s.statuses ++ [result.2]⟩

/-- The sequence number of a call is larger than those before. -/
def Session.Fresh (s : Session κ) (op : Op κ) : Prop := ∀ n ∈ op.seqno, s.last < n

/-- What the tree needs of a call. -/
def Session.May (cfg : Config κ) (s : Session κ) : Op κ → Prop
  | .write key data seqno write_type => MayWrite cfg s.tree ⟨key, data, seqno, false⟩ write_type
  | .delete key seqno => MayDelete cfg s.tree key seqno
  | .snapCreate _ => True
  | .snapDelete _ => True

instance (s : Session κ) (op : Op κ) : Decidable (s.Fresh op) :=
  inferInstanceAs (Decidable (∀ n ∈ op.seqno, _))

instance (cfg : Config κ) (s : Session κ) (op : Op κ) : Decidable (s.May cfg op) := by
  cases op <;> unfold Session.May <;> infer_instance

/-- Every call of a history draws a larger sequence number than those before, and
may be made. -/
def Admissible (cfg : Config κ) (ops : List (Op κ)) : Prop :=
  Machine.Admitted (Session.step cfg) (fun s op => s.Fresh op ∧ s.May cfg op) Session.init ops

instance (cfg : Config κ) (ops : List (Op κ)) : Decidable (Admissible cfg ops) :=
  inferInstanceAs (Decidable (Machine.Admitted _ _ _ _))

/-- The calls of a history one after the other, on a new tree. -/
def runOps (cfg : Config κ) (ops : List (Op κ)) : Option (Session κ) :=
  run (Session.step cfg) Session.init ops

/-- One call to the store. -/
def Store.apply (maxSnapshots : ℕ) (store : Store κ) : Op κ → Store κ × Status
  | .write key data _ write_type =>
    if write_type.accepts (store.active key).isSome then
      ({ store with active := update store.active key (some data) }, .success)
    else (store, .keyNotFound)
  | .delete key _ =>
    if (store.active key).isSome then
      ({ store with active := update store.active key none }, .success)
    else (store, .keyNotFound)
  | .snapCreate seqno =>
    if maxSnapshots ≤ store.snapshots.length then (store, .tooManySnapshots)
    else ({ store with snapshots := store.snapshots ++ [(seqno, store.active)] }, .success)
  | .snapDelete seqno =>
    if seqno ∈ store.snapshots.map Prod.fst then
      ({ store with snapshots := store.snapshots.filter fun p => p.1 ≠ seqno }, .success)
    else (store, .failure)

/-- One call of a history to the store, with its status. -/
def Store.step (maxSnapshots : ℕ) (s : Store κ × List Status) (op : Op κ) :
    Store κ × List Status :=
  ((s.1.apply maxSnapshots op).1, s.2 ++ [(s.1.apply maxSnapshots op).2])

/-- A whole history on the store. -/
def Store.run (maxSnapshots : ℕ) (ops : List (Op κ)) : Store κ × List Status :=
  ops.foldl (Store.step maxSnapshots) (Store.init, [])

end

variable {κ : Type} [LinearOrder κ]

/-! ## Snapshots -/

variable {cfg : Config κ} {versions : List (Entry κ × Data)}

section

variable {t : Tree κ} {h last : ℕ}

/-- Snapshots may be dropped, and added when they are newer than all versions. -/
theorem Inv.withSnapshots (inv : Inv cfg t h last versions) {l : List ℕ} {last' : ℕ}
    (known : ∀ n ∈ l, n ∈ t.snapshots ∨ last < n) (sorted : l.Pairwise (· < ·))
    (bounded : ∀ n ∈ l, n ≤ last') (le : last ≤ last') :
    Inv cfg { t with snapshots := l } h last' versions where
  shape := { inv.shape with }
  roomy := { inv.roomy with }
  seqnos := inv.seqnos.imp fun _ both => ⟨both.1, both.2.trans le⟩
  contents := inv.contents
  stored := inv.stored
  covered := by
    intro s mem p hi bound reader upto
    rcases reader with rfl | ⟨n, nMem, rfl⟩
    · exact inv.covered s mem p hi ⊤ (.inl rfl) upto
    · rcases known n nMem with old | newer
      · exact inv.covered s mem p hi _ (.inr ⟨n, old, rfl⟩) upto
      · -- a reader of all versions finds one, and the snapshot is newer than it
        obtain ⟨e, eMem, key, starts, -⟩ := inv.covered s mem p hi ⊤ (.inl rfl) le_top
        have upto' := inv.recent.contents (h := h) e (mem_flatMap.mpr ⟨s, mem, eMem⟩)
        exact ⟨e, eMem, key, starts, WithTop.coe_le_coe.mpr (upto'.trans newer.le)⟩
  snapshots := sorted
  bounded := bounded

/-- A snapshot newer than all versions sees the active container. -/
theorem Inv.valueAt_newer (inv : Inv cfg t h last versions) {n : ℕ} (newer : last < n) (key : κ) :
    valueAt versions key (WithTop.some n) = valueAt versions key ⊤ := by
  unfold valueAt lookup
  rw [visible_all]
  intro v mem
  have upto : v.1.seqno ≤ last :=
    inv.recent.contents (h := h) v.1 (inv.contents ▸ mem_map_of_mem mem)
  exact WithTop.coe_le_coe.mpr (upto.trans newer.le)

end

/-! ## A new tree -/

/-- A new tree holds no versions. -/
theorem Inv.init (cfg : Config κ) : Inv cfg Tree.init 0 0 [] := by
  have nodes : ∀ id n, (Tree.init : Tree κ).nodes id = some n → id = 1 ∧ n = .leaf 0 [] := by
    intro id n stored
    simp only [Tree.init, update_apply] at stored
    split_ifs at stored with one
    cases stored
    exact ⟨one, rfl⟩
  have root : (Tree.init : Tree κ).nodes 1 = some (.leaf 0 []) := by simp [Tree.init]
  have entries : entriesOf (Tree.init : Tree κ).nodes 1 = [] := by simp [entriesOf, root]
  constructor
  · constructor
    · intro d le s mem
      obtain rfl := Nat.le_zero.mp le
      rw [Tree.level_zero, mem_singleton] at mem
      exact ⟨.leaf 0 [], mem ▸ root, rfl⟩
    · intro d le
      obtain rfl := Nat.le_zero.mp le
      simp
    · intro id stored
      obtain ⟨n, isNode⟩ := ne_none_iff_exists'.mp stored
      exact ⟨0, le_rfl, ⟨1, ⊤⟩, by simp [Tree.init], (nodes id n isNode).1.symm⟩
    · intro id stored
      obtain ⟨n, isNode⟩ := ne_none_iff_exists'.mp stored
      obtain rfl := (nodes id n isNode).1
      exact ⟨by decide, Nat.lt_succ_self 1⟩
    · have cell : (Tree.init : Tree κ).cell ⟨1, ⊤⟩ = ⟨⊤, []⟩ := by simp [Tree.cell, entries]
      change Tiled Entry.pos ⊥ [(Tree.init : Tree κ).cell ⟨1, ⊤⟩]
      rw [cell]
      exact ⟨WithBot.bot_lt_coe _, ⟨List.Pairwise.nil, by simp, by simp⟩, trivial⟩
    · have last : nextOf (Tree.init : Tree κ).nodes 1 = 0 := by simp [nextOf, root]
      exact ⟨last, trivial⟩
  · constructor
    · intro id n stored
      obtain ⟨-, rfl⟩ := nodes id n stored
      simp [Node.Fits]
    · intro id level next rightmost stored
      cases (nodes id _ stored).2
  · intro id n stored
    obtain ⟨-, rfl⟩ := nodes id n stored
    simp [Node.Seqnos]
  · have noEntries : (Tree.init : Tree κ).contents 0 = [] := by
      exact entries
    rw [noEntries, map_nil]
  · exact Stored.nil ..
  · intro s mem p hi
    rw [Tree.level_zero, mem_singleton] at mem
    rw [mem] at hi
    cases hi
  · exact List.Pairwise.nil
  · simp [Tree.init]

/-! ## Refinement -/

/-- The versions show every reader what the store has. -/
structure Shows (snapshots : List ℕ) (versions : List (Entry κ × Data)) (store : Store κ) :
    Prop where
  names : snapshots = store.snapshots.map Prod.fst
  active : ∀ key, valueAt versions key ⊤ = store.active key
  frozen : ∀ p ∈ store.snapshots, ∀ key, valueAt versions key (WithTop.some p.1) = p.2 key

/-- A session that has done what the store has. -/
def Matches (cfg : Config κ) (s : Session κ) (a : Store κ × List Status) : Prop :=
  s.statuses = a.2 ∧ ∃ h versions, Inv cfg s.tree h s.last versions ∧
    Shows s.tree.snapshots versions a.1

section

variable {s : Session κ} {a : Store κ × List Status} {obj : Obj κ} {snapshots : List ℕ}
  {versions' : List (Entry κ × Data)} {store : Store κ}

/-- A write that is made changes the active container, and nothing else. -/
theorem Shows.outcome (shows : Shows snapshots versions store) {accepted : Bool}
    (outcome : Outcome snapshots obj accepted versions versions') :
    Shows snapshots versions' (if accepted then
      { store with active := update store.active obj.key obj.value } else store) := by
  have reader : ∀ p ∈ store.snapshots, p.1 ∈ snapshots := fun p mem =>
    shows.names ▸ mem_map_of_mem mem
  unfold Outcome at outcome
  split_ifs at outcome ⊢
  · refine ⟨shows.names, fun key => ?_, fun p mem key => ?_⟩
    · rw [outcome.active, shows.active]
      simp [update_apply]
    · rw [outcome.snapshots p.1 (reader p mem), shows.frozen p mem]
  · refine ⟨shows.names, fun key => ?_, fun p mem key => ?_⟩
    · rw [outcome ⊤ (.inl rfl), shows.active]
    · rw [outcome _ (.inr ⟨p.1, reader p mem, rfl⟩), shows.frozen p mem]

/-- The session makes a call, and does what the store does. -/
def Follows (cfg : Config κ) (s : Session κ) (a : Store κ × List Status) (op : Op κ) : Prop :=
  ∃ next, s.step cfg op = some next ∧ Matches cfg next (Store.step cfg.maxSnapshots a op)

variable {op : Op κ}

/-- A write or a delete is answered as by the store. -/
theorem Shows.follows (shows : Shows s.tree.snapshots versions a.1) (statuses : s.statuses = a.2)
    {accepted : Bool} (drawn : op.seqno = some obj.seqno)
    (applied : a.1.apply cfg.maxSnapshots op = if accepted then
      ({ a.1 with active := update a.1.active obj.key obj.value }, .success)
      else (a.1, .keyNotFound))
    (answers : Answers cfg obj s.tree.snapshots accepted versions (op.apply cfg s.tree)) :
    Follows cfg s a op := by
  obtain ⟨t', h', versions', ran, inv', snapshots, outcome⟩ := answers
  have shown := shows.outcome outcome
  refine ⟨⟨t', obj.seqno, s.statuses ++ [writeStatus accepted]⟩, ?_, ?_, h', versions', inv', ?_⟩
  · simp [Session.step, ran, drawn]
  · simp only [step, applied, statuses, writeStatus]
    split_ifs <;> rfl
  · simp only [step, applied, snapshots]
    split_ifs at shown ⊢ <;> exact shown

/-- A snapshot freezes the active container. -/
theorem Matches.snapCreate (related : Matches cfg s a) {seqno : ℕ} (fresh : s.last < seqno) :
    Follows cfg s a (.snapCreate seqno) := by
  obtain ⟨statuses, h, versions, inv, shows⟩ := related
  have length : s.tree.snapshots.length = a.1.snapshots.length := by
    rw [shows.names, length_map]
  refine ⟨_, rfl, ?_⟩
  simp only [Matches, step, apply, btreeSnapCreateMeta, Op.seqno, getD_some, length]
  split_ifs with many
  · exact ⟨by rw [statuses]; rfl, h, versions, inv.mono fresh.le, shows⟩
  · refine ⟨by rw [statuses]; rfl, h, versions, inv.withSnapshots ?_ ?_ ?_ fresh.le, ?_, ?_, ?_⟩
    · exact forall_mem_append.mpr ⟨fun _ => .inl, forall_mem_singleton.mpr (.inr fresh)⟩
    · refine pairwise_append.mpr ⟨inv.snapshots, pairwise_singleton _ _, ?_⟩
      intro n mem m new
      exact (inv.bounded n mem).trans_lt (mem_singleton.mp new ▸ fresh)
    · exact forall_mem_append.mpr ⟨fun n old => (inv.bounded n old).trans fresh.le,
        forall_mem_singleton.mpr le_rfl⟩
    · simp [shows.names]
    · exact shows.active
    · intro p mem key
      rcases mem_append.mp mem with old | new
      · exact shows.frozen p old key
      · rw [mem_singleton.mp new, inv.valueAt_newer fresh, shows.active]

theorem Matches.snapDelete (related : Matches cfg s a) (seqno : ℕ) :
    Follows cfg s a (.snapDelete seqno) := by
  obtain ⟨statuses, h, versions, inv, shows⟩ := related
  refine ⟨_, rfl, ?_⟩
  simp only [Matches, step, apply, btreeSnapDeleteMeta_eq inv.snapshots, Op.seqno,
    getD_none, ← shows.names]
  split_ifs with known
  · have nodup : s.tree.snapshots.Nodup := inv.snapshots.imp ne_of_lt
    have fewer := erase_sublist (a := seqno) (l := s.tree.snapshots)
    refine ⟨by rw [statuses]; rfl, h, versions, inv.withSnapshots ?_ ?_ ?_ le_rfl,
      ?_, ?_, ?_⟩
    · exact fun n mem => .inl (fewer.subset mem)
    · exact inv.snapshots.sublist fewer
    · exact fun n mem => inv.bounded n (fewer.subset mem)
    · rw [shows.names] at nodup ⊢
      rw [nodup.erase_eq_filter, List.filter_map]
      refine congrArg (map Prod.fst) (filter_congr fun p _ => ?_)
      by_cases same : p.1 = seqno <;> simp [same]
    · exact shows.active
    · exact fun p mem => shows.frozen p (mem_of_mem_filter mem)
  · exact ⟨by rw [statuses]; rfl, h, versions, inv, shows⟩

/-- Every call that may be made does what the store does. -/
theorem Matches.step (related : Matches cfg s a) (ok : s.Fresh op ∧ s.May cfg op) :
    Follows cfg s a op := by
  obtain ⟨fresh, may⟩ := ok
  have ⟨statuses, h, versions, inv, shows⟩ := related
  cases op with
  | write key data seqno write_type =>
    have answers := inv.write (fresh seqno rfl) may
    rw [shows.active] at answers
    exact shows.follows statuses rfl rfl answers
  | delete key seqno =>
    have answers := inv.delete (fresh seqno rfl) may
    rw [shows.active] at answers
    exact shows.follows statuses rfl rfl answers
  | snapCreate seqno => exact related.snapCreate (fresh seqno rfl)
  | snapDelete seqno => exact related.snapDelete seqno

theorem Matches.init (cfg : Config κ) : Matches cfg Session.init (Store.init, []) :=
  ⟨rfl, 0, [], Inv.init cfg, rfl, fun _ => rfl, by simp [Store.init]⟩

/-- A history whose calls may be made runs through and does what the store does. -/
theorem Admissible.runs {ops : List (Op κ)} (admissible : Admissible cfg ops) :
    ∃ s, runOps cfg ops = some s ∧ Matches cfg s (Store.run cfg.maxSnapshots ops) :=
  run_simulates (fun related ok => related.step ok) (Matches.init cfg) admissible

theorem Matches.names (related : Matches cfg s a) :
    s.tree.snapshots = a.1.snapshots.map Prod.fst := by
  obtain ⟨-, h, versions, inv, shows⟩ := related
  exact shows.names

/-- What the session returns for a lookup in the active container. -/
theorem Matches.get_active (related : Matches cfg s a) (key : κ) :
    btreeRawGet cfg s.tree key .any = some (answer (a.1.active key)) := by
  obtain ⟨-, h, versions, inv, shows⟩ := related
  have found := inv.get (.inl rfl) key
  rwa [shows.active] at found

variable {p : ℕ × (κ → Option Data)}

/-- What the session returns for a lookup in a snapshot. -/
theorem Matches.get_snapshot (related : Matches cfg s a) (mem : p ∈ a.1.snapshots) (key : κ) :
    btreeRawGet cfg s.tree key (.le p.1) = some (answer (p.2 key)) := by
  have known : p.1 ∈ s.tree.snapshots := related.names ▸ mem_map_of_mem mem
  obtain ⟨-, h, versions, inv, shows⟩ := related
  have reader : Reader s.tree.snapshots (WithTop.some p.1) := .inr ⟨p.1, known, rfl⟩
  have found := inv.get reader key
  rwa [shows.frozen p mem] at found

/-- The snapshots of the store after a call: those before, and the one made. -/
theorem Store.apply_snapshots {maxSnapshots : ℕ}
    (mem : p ∈ (store.apply maxSnapshots op).1.snapshots) :
    p ∈ store.snapshots ∨ op = .snapCreate p.1 ∧ p.2 = store.active := by
  cases op with
  | write | delete =>
    simp only [apply] at mem
    split_ifs at mem <;> exact .inl mem
  | snapCreate seqno =>
    simp only [apply] at mem
    split_ifs at mem
    · exact .inl mem
    · rcases mem_append.mp mem with old | new
      · exact .inl old
      · rw [mem_singleton.mp new]
        exact .inr ⟨rfl, rfl⟩
  | snapDelete seqno =>
    simp only [apply] at mem
    split_ifs at mem
    · exact .inl (mem_of_mem_filter mem)
    · exact .inl mem

/-- A session that matches the store, after the snapshot `n` of `frozen` was
made. -/
def MatchesAfter (cfg : Config κ) (n : ℕ) (frozen : κ → Option Data) (s : Session κ)
    (a : Store κ × List Status) : Prop :=
  Matches cfg s a ∧ n ≤ s.last ∧ ∀ p ∈ a.1.snapshots, p.1 = n → p.2 = frozen

theorem MatchesAfter.step {n : ℕ} {frozen : κ → Option Data}
    (related : MatchesAfter cfg n frozen s a) (ok : s.Fresh op ∧ s.May cfg op) :
    ∃ next, s.step cfg op = some next ∧
      MatchesAfter cfg n frozen next (Store.step cfg.maxSnapshots a op) := by
  obtain ⟨same, upto, isFrozen⟩ := related
  obtain ⟨next, taken, same'⟩ := same.step ok
  refine ⟨next, taken, same', ?_, fun p mem isN => ?_⟩
  · obtain ⟨result, -, rfl⟩ := map_eq_some_iff.mp taken
    cases drawn : op.seqno with
    | none => exact upto
    | some m => exact upto.trans (ok.1 m drawn).le
  · rcases apply_snapshots mem with old | ⟨rfl, -⟩
    · exact isFrozen p old isN
    · -- a later snapshot has a larger sequence number
      have later := ok.1 p.1 rfl
      omega

theorem Matches.created (related : Matches cfg s a) {n : ℕ} (fresh : s.last < n) :
    ∃ next, s.step cfg (.snapCreate n) = some next ∧
      MatchesAfter cfg n a.1.active next (Store.step cfg.maxSnapshots a (.snapCreate n)) := by
  obtain ⟨next, taken, same⟩ := related.snapCreate fresh
  refine ⟨next, taken, same, ?_, fun p mem isN => ?_⟩
  · obtain ⟨result, -, rfl⟩ := map_eq_some_iff.mp taken
    exact le_rfl
  · rcases apply_snapshots mem with old | ⟨-, active⟩
    · obtain ⟨-, h, versions, inv, shows⟩ := related
      have upto := inv.bounded p.1 (shows.names ▸ mem_map_of_mem old)
      omega
    · exact active

end

/-! ## The two contracts of a tree -/

theorem fourKeys_small : 4 * (sizeofVlkey + 172) ≤ 800 := by decide

theorem largeObjects_small : 782 < 800 := by decide

/-- A small tree, whose keys are as long as they are large. -/
def smallConfig : Config ℕ where
  keylen := id
  nodesizeLessHdr := 800
  maxKeySize := 172
  ovdatasize := 256
  maxSnapshots := 4
  fourKeys := fourKeys_small
  largeObjects := largeObjects_small
  ovdatasize_pos := by decide

theorem smallConfig_nodesize : 800 + sizeofRawNode ≤ sizeofTmpLeafNode := by decide

/-- The same without prefix compression. -/
def smallTree : TreeConfig ℕ where
  toConfig := smallConfig
  spaceOpDisabled := true
  uncompressed := rfl
  nodesize_le := smallConfig_nodesize

/-- Five writes, the last of which splits the root, and a delete. -/
def splitHistory : List (Op ℕ) :=
  [.write 5 (.replicate 150 1) 1 .set, .write 6 (.replicate 150 2) 2 .create,
    .write 7 (.replicate 150 3) 3 .set, .write 5 (.replicate 155 4) 4 .update,
    .write 8 (.replicate 150 5) 5 .set, .delete 6 6, .write 6 [7] 7 .create]

/-- The offsets of the entries of a leaf fit in the 16 bits of `header_offset`. -/
theorem Inv.headerOffset_lt {cfg : TreeConfig κ} {t : Tree κ} {h last id next : ℕ}
    {entries : List (Entry κ)} (inv : Inv cfg.toConfig t h last versions)
    (stored : t.nodes id = some (.leaf next entries)) (index : ℕ) :
    headerOffset cfg.toConfig entries index < 2 ^ 16 := by
  have used := (inv.roomy.fits _ _ stored).1
  have less := headerOffset_le cfg.toConfig entries index
  have small := cfg.nodesize_le
  simp only [sizeofTmpLeafNode, BTREE_MAX_NODE_SIZE] at small
  omega

/-- Snapshots are isolated: as long as a snapshot is there, every lookup in it
returns what a lookup in the active container returned when it was made. -/
theorem snapshot_isolation (cfg : TreeConfig κ) (before after : List (Op κ)) (seqno : ℕ)
    (admissible : Admissible cfg.toConfig (before ++ .snapCreate seqno :: after)) :
    ∃ s₀ s, runOps cfg.toConfig before = some s₀ ∧
      runOps cfg.toConfig (before ++ .snapCreate seqno :: after) = some s ∧
      (seqno ∈ s.tree.snapshots → ∀ key, ∃ result,
        btreeRawGet cfg.toConfig s₀.tree key .any = some result ∧
        btreeRawGet cfg.toConfig s.tree key (.le seqno) = some result) := by
  obtain ⟨first, second⟩ := Machine.Admitted.append admissible
  obtain ⟨s₀, ran₀, related₀⟩ := Admissible.runs first
  obtain ⟨⟨fresh, -⟩, onward⟩ := second s₀ ran₀
  obtain ⟨s₁, taken, related₁⟩ := related₀.created (fresh seqno rfl)
  obtain ⟨s, ran, related, -, frozen⟩ :=
    run_simulates (fun related ok => related.step ok) related₁ (onward s₁ taken)
  refine ⟨s₀, s, ran₀, ?_, fun mem key => ?_⟩
  · have ran₀' : Machine.run (Session.step cfg.toConfig) Session.init before = some s₀ := ran₀
    rw [runOps, run_append, ran₀', bind_some]
    exact run_cons_eq_some.mpr ⟨s₁, taken, ran⟩
  · rw [related.names] at mem
    obtain ⟨p, pMem, rfl⟩ := mem_map.mp mem
    have found := related.get_snapshot pMem key
    rw [frozen p pMem rfl] at found
    exact ⟨_, related₀.get_active key, found⟩

/-- A key that is overwritten and deleted after a snapshot. -/
theorem snapshot_isolation_overwritten :
    (runOps smallConfig ([.write 5 [1] 1 .set] ++ .snapCreate 2 ::
      [.write 5 [3] 3 .set, .delete 5 4])).map (fun s => s.tree.snapshots) = some [2] ∧
    ∃ s₀ s, runOps smallConfig [.write 5 [1] 1 .set] = some s₀ ∧
      runOps smallConfig ([.write 5 [1] 1 .set] ++ .snapCreate 2 ::
        [.write 5 [3] 3 .set, .delete 5 4]) = some s ∧
      (2 ∈ s.tree.snapshots → ∀ key, ∃ result,
        btreeRawGet smallConfig s₀.tree key .any = some result ∧
        btreeRawGet smallConfig s.tree key (.le 2) = some result) :=
  ⟨by decide +kernel, snapshot_isolation smallTree _ _ 2 (by decide +kernel)⟩

/-- A key with three versions, for the active container and two snapshots. -/
def threeVersions : List (Op ℕ) :=
  [.write 5 (.replicate 145 0) 0 .set, .snapCreate 1, .write 5 (.replicate 145 2) 2 .set,
    .snapCreate 3, .write 5 (.replicate 155 4) 4 .set]

/-- Writes that split the leaf of the versions, and then the right half. -/
def splittingWrites : List (Op ℕ) :=
  [.write 3 (.replicate 155 6) 6 .set, .write 5 (.replicate 155 7) 7 .set,
    .write 6 (.replicate 133 8) 8 .set, .write 7 (.replicate 133 9) 9 .set,
    .write 8 (.replicate 140 10) 10 .set]

/-- `insert_key` puts the separator of a version with sequence number 0 before
the newer ones of its key: the snapshot 5 loses the version it was made of. -/
theorem snapshot_lost_after_seqno_zero :
    (runOps smallConfig threeVersions).bind (fun s => btreeRawGet smallConfig s.tree 5 .any) =
      some (.success, .replicate 155 4) ∧
    (runOps smallConfig (threeVersions ++ .snapCreate 5 :: splittingWrites)).map
      (fun s => s.tree.snapshots) = some [1, 3, 5] ∧
    (runOps smallConfig (threeVersions ++ .snapCreate 5 :: splittingWrites)).bind
      (fun s => btreeRawGet smallConfig s.tree 5 (.le 5)) = some (.success, .replicate 145 2) := by
  decide +kernel

end Zetascale.Btree
