import Zetascale.Btree.LeafWrite

/-!
# The versions in a tree

`Inv` is what holds between operations: the tree is in shape, its nodes are not
overfull, its entries hold their data, and every leaf has, for each reader, the
versions that the separator above it promises. A lookup then returns what the
reader sees of the list of all versions.
-/

namespace Zetascale.Btree

open List Option Pos

variable {κ : Type} [LinearOrder κ]

/-- Who reads a tree: the active container and the snapshots. -/
def Reader (snapshots : List ℕ) (bound : WithTop ℕ) : Prop :=
  bound = ⊤ ∨ ∃ s ∈ snapshots, bound = WithTop.some s

/-- A separator leads every reader of its key that is not older than itself to
the leaf on its left, so that leaf has a version for the reader. -/
def Covered (snapshots : List ℕ) (hi : WithTop (Pos κ)) (entries : List (Entry κ)) : Prop :=
  ∀ p : Pos κ, hi = p → ∀ bound, Reader snapshots bound → p.version ≤ bound →
    ∃ e ∈ entries, e.key = p.key ∧ p.version ≤ WithTop.some e.seqno ∧ WithTop.some e.seqno ≤ bound

/-- The value of a version: a tombstone has none. -/
def valueOf (v : Entry κ × Data) : Option Data := if v.1.tombstone then none else some v.2

/-- The place of a version. -/
def posOf (v : Entry κ × Data) : Pos κ := v.1.pos

/-- What a reader gets for a key. -/
abbrev valueAt (versions : List (Entry κ × Data)) (key : κ) (bound : WithTop ℕ) : Option Data :=
  lookup posOf valueOf versions key bound

/-- The invariant of a tree with leaves at depth `h`, whose last sequence number
is `last` and whose versions with their data are `versions`. -/
structure Inv (cfg : Config κ) (t : Tree κ) (h last : ℕ) (versions : List (Entry κ × Data)) :
    Prop where
  shape : Shape t h
  roomy : t.Roomy cfg
  seqnos : t.Seqnos fun n => 0 < n ∧ n ≤ last
  contents : versions.map Prod.fst = t.contents h
  stored : Stored cfg t.ovnodes t.logical_id_counter versions
  covered : ∀ s ∈ t.level h, Covered t.snapshots s.hi (entriesOf t.nodes s.id)
  snapshots : t.snapshots.Pairwise (· < ·)
  bounded : ∀ s ∈ t.snapshots, s ≤ last

variable {cfg : Config κ} {t t' : Tree κ} {h h' last : ℕ} {versions : List (Entry κ × Data)}

section

variable {P Q : ℕ → Prop}

omit [LinearOrder κ] in
theorem Tree.Seqnos.imp (seqnos : t.Seqnos P) (weaker : ∀ n, P n → Q n) : t.Seqnos Q := by
  intro id n stored
  have all := seqnos id n stored
  cases n with
  | leaf => exact fun x mem => weaker _ (all x mem)
  | nonleaf => exact fun x mem => weaker _ (all x mem)

theorem Inv.positive (inv : Inv cfg t h last versions) : t.Positive :=
  inv.seqnos.imp fun _ both => both.1

theorem Inv.recent (inv : Inv cfg t h last versions) : t.Seqnos (· ≤ last) :=
  inv.seqnos.imp fun _ both => both.2

theorem Inv.started (inv : Inv cfg t h last versions) : t.logical_id_counter ≠ 0 := by
  obtain ⟨n, stored, -⟩ := inv.shape.kinds 0 (Nat.zero_le h) ⟨t.rootid, ⊤⟩ (by simp)
  have less := (inv.shape.ids t.rootid (by simp [stored])).2
  omega

theorem Shape.contents_sorted (shape : Shape t h) : SortedBy Entry.pos (t.contents h) := by
  have sorted := shape.tiled.sorted
  rw [Tree.flatMap_cell] at sorted
  exact sorted

omit [LinearOrder κ] in
theorem Tree.Seqnos.contents (seqnos : t.Seqnos P) : ∀ e ∈ t.contents h, P e.seqno := by
  intro e mem
  obtain ⟨s, -, here⟩ := mem_flatMap.mp mem
  unfold entriesOf at here
  cases stored : t.nodes s.id with
  | none => simp [stored] at here
  | some n =>
    cases n with
    | leaf next entries =>
      simp only [stored] at here
      exact seqnos _ _ stored e here
    | nonleaf => simp [stored] at here

theorem visible_map_fst (versions : List (Entry κ × Data)) (key : κ) (bound : WithTop ℕ) :
    (visible posOf versions key bound).map Prod.fst =
      visible Entry.pos (versions.map Prod.fst) key bound := by
  unfold visible
  rw [find?_map]
  rfl

end

/-! ## Looking up -/

section

variable {bound : WithTop ℕ}

/-- What a reader sees of the whole tree is in the leaf to which its search
leads. -/
theorem Inv.visible_leaf (inv : Inv cfg t h last versions) {key : κ}
    (reader : Reader t.snapshots bound) {s : Slot (Pos κ)}
    (covers : Covers (t.level h) ⟨key, bound⟩ s) : visible Entry.pos (t.contents h) key bound =
      visible Entry.pos (entriesOf t.nodes s.id) key bound := by
  have ⟨pre, post, cut, before, upto⟩ := covers
  unfold Tree.contents
  rw [cut, flatMap_append, flatMap_cons, visible_append_right, visible_append]
  · cases here : visible Entry.pos (entriesOf t.nodes s.id) key bound with
    | some e => rfl
    | none =>
      rw [none_or, visible_eq_none]
      intro x mem same le
      -- a version behind the leaf would be the one its separator promises
      obtain ⟨p, hi, less⟩ := WithTop.lt_iff_exists_coe.mp (inv.shape.beyond_hi cut mem)
      rw [hi, WithTop.coe_le_coe] at upto
      have keyLe : key ≤ p.key := key_le_of_le upto
      have keyGe : p.key ≤ key := same ▸ key_le_of_le (WithTop.coe_lt_coe.mp less).le
      have version : p.version ≤ bound := version_le_of_le upto (le_antisymm keyLe keyGe)
      obtain ⟨e, eMem, eKey, -, eLe⟩ := inv.covered s covers.mem p hi bound reader version
      exact visible_eq_none.mp here e eMem (eKey.trans (le_antisymm keyGe keyLe)) eLe
  · intro x mem same le
    obtain ⟨y, yMem, xMem⟩ := mem_flatMap.mp mem
    have xUpto := inv.shape.upto_hi (s := y) (by simp [cut, yMem]) xMem
    have less := WithTop.coe_lt_coe.mp (xUpto.trans_lt (before y yMem))
    exact absurd le (not_le.mpr (version_lt_of_lt less same))

/-- What a lookup answers for a value. -/
def answer : Option Data → Status × Data
  | some data => (.success, data)
  | none => (.keyNotFound, [])

/-- `btree_raw_get` returns what the reader sees, if that is in the leaf to which
its search leads. -/
theorem btreeRawGet_eq (shape : Shape t h) (contents : versions.map Prod.fst = t.contents h)
    (chains : Stored cfg t.ovnodes t.logical_id_counter versions) {key : κ}
    (seen : ∀ s, Covers (t.level h) ⟨key, bound⟩ s → visible Entry.pos (t.contents h) key bound =
      visible Entry.pos (entriesOf t.nodes s.id) key bound) :
    btreeRawGet cfg t key (.reader bound) = some (answer (valueAt versions key bound)) := by
  obtain ⟨leaf, found, covers⟩ := shape.findLeaf_root key (.reader bound)
  rw [SeqFilter.reader_place] at covers
  obtain ⟨next, entries, stored⟩ := shape.leaf covers.mem
  have sorted := shape.leaf_sorted covers.mem stored
  have seen := seen leaf covers
  simp only [entriesOf, stored] at seen
  obtain ⟨foundEq, index⟩ := btreeLeafFindKey_reader sorted key bound
  have whole := visible_map_fst versions key bound
  rw [contents, seen] at whole
  simp only [btreeRawGet, found, stored, bind_eq_bind, bind_some, foundEq]
  unfold valueAt lookup
  cases version : visible posOf versions key bound with
  | none =>
    rw [version, map_none] at whole
    simp [← whole, answer]
  | some v =>
    obtain ⟨e, data⟩ := v
    rw [version, map_some] at whole
    have mem := (visible_some version).1
    simp only [index e whole.symm, ← whole, isSome_some, bind_some, valueOf]
    cases dead : e.tombstone with
    | true => simp [answer]
    | false =>
      exact chains.read mem

/-- `btree_raw_get` returns what the reader sees. -/
theorem Inv.get (inv : Inv cfg t h last versions) (reader : Reader t.snapshots bound) (key : κ) :
    btreeRawGet cfg t key (.reader bound) = some (answer (valueAt versions key bound)) :=
  btreeRawGet_eq inv.shape inv.contents inv.stored fun _ covers => inv.visible_leaf reader covers

end

/-! ## Changes of the structure -/

variable {snapshots : List ℕ}

/-- The right half of a leaf keeps what the separator above it promises. -/
theorem Covered.right {hi : WithTop (Pos κ)} {l r : List (Entry κ)}
    (covered : Covered snapshots hi (l ++ r)) (sorted : SortedBy Entry.pos (l ++ r))
    (below : ∀ x ∈ r, (x.pos : WithTop (Pos κ)) ≤ hi) (more : r ≠ []) : Covered snapshots hi r := by
  rintro p rfl bound reader le
  obtain ⟨e, mem, key, starts, upto⟩ := covered p rfl bound reader le
  rcases mem_append.mp mem with inLeft | inRight
  · -- then any entry of the right half will do
    obtain ⟨x, xMem⟩ := exists_mem_of_ne_nil r more
    have after := (sortedBy_append.mp sorted).2.2 e inLeft x xMem
    have before := WithTop.coe_le_coe.mp (below x xMem)
    have same : x.key = p.key :=
      le_antisymm (key_le_of_le before) (key ▸ key_le_of_le after.le)
    have version : WithTop.some x.seqno ≤ WithTop.some e.seqno :=
      version_le_of_le after.le (key.trans same.symm)
    exact ⟨x, xMem, same, version_le_of_le before same, version.trans upto⟩
  · exact ⟨e, inRight, key, starts, upto⟩

omit [LinearOrder κ] in
/-- The separator between two halves is itself a version in the left one. -/
theorem Covered.left (snapshots : List ℕ) (l : List (Entry κ)) (e : Entry κ) :
    Covered snapshots (e.pos : WithTop (Pos κ)) (l ++ [e]) := by
  rintro p eq bound - le
  obtain rfl := WithTop.coe_injective eq
  exact ⟨e, by simp, rfl, le_refl _, le⟩

theorem Reshape.covered (change : Reshape cfg t h t' h') (shape : Shape t h)
    (covered : ∀ s ∈ t.level h, Covered snapshots s.hi (entriesOf t.nodes s.id)) :
    ∀ s ∈ t'.level h', Covered snapshots s.hi (entriesOf t'.nodes s.id) := by
  cases change with
  | root =>
    intro s mem
    rw [shape.splitRoot_level le_rfl] at mem
    rw [entriesOf_congr (shape.splitRoot_other le_rfl mem)]
    exact covered s mem
  | nonleaf split inner =>
    obtain ⟨levels, nodes⟩ := split.leaf_nodes shape inner
    intro s mem
    rw [levels] at mem
    rw [entriesOf_congr (nodes s mem)]
    exact covered s mem
  | @leaf d sp _ _ _ front back next c l r last hi split fits more =>
    obtain ⟨pre, post, cut, cut', others, leftNode, rightNode⟩ := split.leaf_level shape
    have between := shape.leaf_between cut split.childNode
    have here := covered ⟨c, hi⟩ (by simp [cut])
    simp only [entriesOf, split.childNode] at here
    intro s mem
    rw [cut'] at mem
    have three : s ∈ pre ++ post ∨ s = ⟨c, last.pos⟩ ∨ s = ⟨t.logical_id_counter, hi⟩ := by
      simp only [mem_append, mem_cons] at mem ⊢
      tauto
    rcases three with other | rfl | rfl
    · rw [entriesOf_congr (others s other)]
      apply covered s
      rw [cut]
      simp only [mem_append, mem_cons] at other ⊢
      tauto
    · simp only [entriesOf, leftNode]
      exact Covered.left snapshots l last
    · simp only [entriesOf, rightNode]
      exact here.right between.sorted (fun x xMem => between.below x (mem_append_right _ xMem)) more

/-- The splits of a descent keep the invariant. -/
theorem Inv.reshape (inv : Inv cfg t h last versions) (changes : Reshapes cfg t h t' h') :
    Inv cfg t' h' last versions := by
  induction changes with
  | refl => exact inv
  | step change _ ih =>
    apply ih
    constructor
    · exact change.shape inv.shape
    · exact change.roomy inv.roomy
    · exact change.seqnos inv.seqnos
    · rw [inv.contents, change.contents inv.shape]
    · rw [change.ovnodes]
      exact inv.stored.mono change.counter_le
    · rw [change.snapshots]
      exact change.covered inv.shape inv.covered
    · rw [change.snapshots]
      exact inv.snapshots
    · rw [change.snapshots]
      exact inv.bounded

end Zetascale.Btree
