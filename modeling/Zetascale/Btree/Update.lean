import Zetascale.Btree.Versions

/-!
# What writes do to the versions

The changes of one leaf, as the invariant sees them: the scavenger removes
versions without any reader noticing, and a write adds one version, which only
the readers of the active container see.
-/

namespace Zetascale.Btree

open List Btree.Tree

variable {κ : Type}

variable [LinearOrder κ]

/-! ## Exchanging the entries of a leaf -/

variable {cfg : Config κ} {t t₁ : Tree κ} {h last next : ℕ} {versions : List (Entry κ × Data)}
  {s : Slot (Pos κ)} {entries : List (Entry κ)}

section

variable {last' : ℕ} {versions' : List (Entry κ × Data)} {changed : List (Entry κ)}

section

variable (inv : Inv cfg t h last versions) (mem : s ∈ t.level h)
  (stored : t.nodes s.id = some (.leaf next entries))

include inv mem stored

/-- What of the invariant is to be shown when the entries of one leaf change. -/
theorem Inv.setLeaf (same : SameNodes t t₁) (shape : Shape (t₁.setNode s.id (.leaf next changed)) h)
    (fits : (Node.leaf next changed).Fits cfg)
    (seqnos : ∀ e ∈ changed, 0 < e.seqno ∧ e.seqno ≤ last') (later : last ≤ last')
    (contents : versions'.map Prod.fst = (t₁.setNode s.id (.leaf next changed)).contents h)
    (data : Stored cfg t₁.ovnodes t₁.logical_id_counter versions')
    (covered : Covered t.snapshots s.hi changed) :
    Inv cfg (t₁.setNode s.id (.leaf next changed)) h last' versions' := by
  have snapshots : (t₁.setNode s.id (.leaf next changed)).snapshots = t.snapshots := same.snapshots
  refine ⟨shape, ⟨?_, ?_⟩, ?_, contents, data, ?_, ?_, ?_⟩
  · intro id n stored'
    rw [setNode_nodes, same.nodes] at stored'
    split_ifs at stored'
    · cases stored'
      exact fits
    · exact inv.roomy.fits id n stored'
  · intro id level next' rightmost stored'
    rw [setNode_nodes, same.nodes] at stored'
    split_ifs at stored'
    · cases stored'
    · exact (inv.roomy.keyed id level next' rightmost stored').trans same.rootid.symm
  · exact (inv.seqnos.imp fun n both => ⟨both.1, both.2.trans later⟩).setLeaf same s.id seqnos
  · intro x xMem
    rw [snapshots, setLeaf_entriesOf same]
    rw [setLeaf_level stored same] at xMem
    split_ifs with here
    · obtain rfl := inj_on_of_nodup_map (inv.shape.nodup h le_rfl) xMem mem here
      exact covered
    · exact inv.covered x xMem
  · rw [snapshots]
    exact inv.snapshots
  · rw [snapshots]
    exact fun n mem => (inv.bounded n mem).trans later

theorem Inv.focus : ∃ vl vm vr, versions = vl ++ vm ++ vr ∧ vm.map Prod.fst = entries ∧
      (∀ key, Covers (t.level h) ⟨key, ⊤⟩ s → ∀ v ∈ vl, v.1.key < key) ∧
      ∀ t₁ vm', SameNodes t t₁ → ((vl ++ vm' ++ vr).map Prod.fst : List (Entry κ)) =
        (t₁.setNode s.id (.leaf next (vm'.map Prod.fst))).contents h := by
  obtain ⟨before, after, whole, smaller, changes⟩ := inv.shape.leaf_contents mem stored
  obtain ⟨vlm, vr, rfl, outer, rfl⟩ := map_eq_append_iff.mp (inv.contents.trans whole)
  obtain ⟨vl, vm, rfl, rfl, rfl⟩ := map_eq_append_iff.mp outer
  refine ⟨vl, vm, vr, rfl, rfl, fun key covers v vMem => ?_, fun t₁ vm' same => ?_⟩
  · exact smaller key covers v.1 (mem_map_of_mem vMem)
  · rw [changes t₁ _ same, map_append, map_append]

end

omit [LinearOrder κ] in
theorem setNode_self {id : ℕ} {n : Node κ} (stored : t.nodes id = some n) : t.setNode id n = t := by
  simp [setNode, ← stored]

end

/-! ## Removals -/

variable {kept : List (Entry κ)} {snapshots : List ℕ} {e : Entry κ} {hi : WithTop (Pos κ)}

section

variable {entries' : List (Entry κ)}

/-- No reader misses a version that is removed. -/
def SameValues (snapshots : List ℕ) (versions versions' : List (Entry κ × Data)) : Prop :=
  ∀ bound, Reader snapshots bound → ∀ key, valueAt versions' key bound = valueAt versions key bound

omit [LinearOrder κ] in
/-- A reader that sees a version sees the newer one in the same snapshot. -/
theorem reader_upto {bound : WithTop ℕ} (sorted : snapshots.Pairwise (· < ·))
    (reader : Reader snapshots bound) {n n' : ℕ}
    (together : btreeSnapFindMetaIndex snapshots n = btreeSnapFindMetaIndex snapshots n')
    (upto : WithTop.some n' ≤ bound) : WithTop.some n ≤ bound := by
  rcases reader with rfl | ⟨m, mem, rfl⟩
  · exact le_top
  · exact WithTop.coe_le_coe.mpr
      (upto_of_same_snapshot sorted together mem (WithTop.coe_le_coe.mp upto))

/-- A removal leaves what the separator above the leaf promises. -/
theorem Removal.covered (removal : Removal snapshots entries e entries')
    (sorted : snapshots.Pairwise (· < ·)) (ascending : SortedBy Entry.pos entries)
    (below : ∀ x ∈ entries, (x.pos : WithTop (Pos κ)) ≤ hi)
    (covered : Covered snapshots hi entries) : Covered snapshots hi entries' := by
  rintro p rfl bound reader le
  obtain ⟨x, mem, key, starts, upto⟩ := covered p rfl bound reader le
  cases removal with
  | @shadowed l r a _ same together =>
    simp only [mem_append, mem_cons] at mem
    rcases mem with inLeft | rfl | rfl | inRight
    · exact ⟨x, by simp [inLeft], key, starts, upto⟩
    · exact ⟨x, by simp, key, starts, upto⟩
    · have newer := (sortedBy_cons.mp (sortedBy_append.mp ascending).2.1).1 x (by simp)
      exact ⟨a, by simp, same.trans key, starts.trans (Pos.version_le_of_le newer.le same),
        reader_upto sorted reader together upto⟩
    · exact ⟨x, by simp [inRight], key, starts, upto⟩
  | @expired l r _ b dead other =>
    simp only [mem_append, mem_cons] at mem
    rcases mem with inLeft | rfl | rfl | inRight
    · exact ⟨x, by simp [inLeft], key, starts, upto⟩
    · -- the next key would lie behind the separator
      have next := (sortedBy_cons.mp (sortedBy_append.mp ascending).2.1).1 b (by simp)
      have bound := WithTop.coe_le_coe.mp (below b (by simp))
      exact absurd (le_antisymm (Pos.key_le_of_le next.le)
        ((Pos.key_le_of_le bound).trans key.ge)) other
    · exact ⟨x, by simp, key, starts, upto⟩
    · exact ⟨x, by simp [inRight], key, starts, upto⟩

theorem Removal.among {vl vm vr : List (Entry κ × Data)}
    (removal : Removal snapshots (vm.map Prod.fst) e entries')
    (sorted : snapshots.Pairwise (· < ·)) (ascending : SortedBy posOf (vl ++ vm ++ vr)) :
    ∃ ml data mr, vm = ml ++ (e, data) :: mr ∧ (ml ++ mr).map Prod.fst = entries' ∧
      SameValues snapshots (vl ++ vm ++ vr) (vl ++ (ml ++ mr) ++ vr) := by
  generalize whole : vm.map Prod.fst = entries at removal
  cases removal with
  | @shadowed l r a _ same together =>
    obtain ⟨ml, rest, rfl, rfl, tail⟩ := map_eq_append_iff.mp whole
    obtain ⟨⟨_, dataA⟩, rest', rfl, rfl, tail'⟩ := map_eq_cons_iff.mp tail
    obtain ⟨⟨_, data⟩, mr, rfl, rfl, rfl⟩ := map_eq_cons_iff.mp tail'
    rename_i a e
    refine ⟨ml ++ [(a, dataA)], data, mr, by simp, by simp, ?_⟩
    intro bound reader key
    have unseen : visible posOf (vl ++ ml ++ (a, dataA) :: (e, data) :: (mr ++ vr)) key bound =
        visible posOf (vl ++ ml ++ (a, dataA) :: (mr ++ vr)) key bound :=
      visible_drop_shadowed same fun upto => reader_upto sorted reader together upto
    simp only [valueAt, lookup]
    simp only [append_assoc, cons_append, nil_append] at unseen ⊢
    rw [unseen]
  | @expired l r _ b dead other =>
    obtain ⟨ml, rest, rfl, rfl, tail⟩ := map_eq_append_iff.mp whole
    obtain ⟨⟨_, data⟩, rest', rfl, rfl, tail'⟩ := map_eq_cons_iff.mp tail
    obtain ⟨⟨_, dataB⟩, mr, rfl, rfl, rfl⟩ := map_eq_cons_iff.mp tail'
    rename_i e b
    refine ⟨ml, data, (b, dataB) :: mr, rfl, by simp, ?_⟩
    intro bound reader key
    have regroup : vl ++ (ml ++ (e, data) :: (b, dataB) :: mr) ++ vr =
        vl ++ ml ++ (e, data) :: ((b, dataB) :: mr ++ vr) := by simp
    have regroup' : vl ++ (ml ++ (b, dataB) :: mr) ++ vr =
        vl ++ ml ++ ((b, dataB) :: mr ++ vr) := by simp
    rw [regroup] at ascending ⊢
    rw [regroup']
    symm
    apply lookup_drop_expired
    · simpa [valueOf] using dead
    · exact ascending.key_ne_of_next other

theorem Inv.sorted (inv : Inv cfg t h last versions) : SortedBy posOf versions := by
  have sorted := inv.shape.contents_sorted
  rw [← inv.contents] at sorted
  exact (sortedBy_map Prod.fst versions).mp sorted

/-- The removal of one version from the leaf: its data is freed, and no reader
notices. The tree still has the old entries in the leaf, `entries` are the
present ones. -/
theorem Inv.remove (inv : Inv cfg (t.setNode s.id (.leaf next entries)) h last versions)
    (mem : s ∈ (t.setNode s.id (.leaf next entries)).level h)
    (removal : Removal t.snapshots entries e entries') :
    ∃ heap versions', freeEntryData cfg t e = some { t with ovnodes := heap } ∧
      (Inv cfg (Tree.setNode { t with ovnodes := heap } s.id (.leaf next entries')) h last versions' ∧
        s ∈ (Tree.setNode { t with ovnodes := heap } s.id (.leaf next entries')).level h) ∧
      SameValues t.snapshots versions versions' := by
  have stored := setNode_stored t s.id (.leaf next entries)
  obtain ⟨vl, vm, vr, rfl, rfl, -, contents⟩ := inv.focus mem stored
  obtain ⟨ml, data, mr, rfl, rfl, values⟩ := removal.among inv.snapshots inv.sorted
  have regroup : vl ++ (ml ++ (e, data) :: mr) ++ vr = vl ++ ml ++ (e, data) :: (mr ++ vr) := by
    simp
  have held := inv.stored
  rw [regroup] at held
  obtain ⟨heap, freed, rest⟩ := Stored.free (t := t) held
  have tree : Tree.setNode { t with ovnodes := heap } s.id
      (.leaf next ((ml ++ mr).map Prod.fst)) =
      setNode { t.setNode s.id (.leaf next ((ml ++ (e, data) :: mr).map Prod.fst)) with
        ovnodes := heap } s.id (.leaf next ((ml ++ mr).map Prod.fst)) := by
    simp [setNode]
  have same : SameNodes (t.setNode s.id (.leaf next ((ml ++ (e, data) :: mr).map Prod.fst)))
      { t.setNode s.id (.leaf next ((ml ++ (e, data) :: mr).map Prod.fst)) with
        ovnodes := heap } := ⟨rfl, rfl, rfl, le_rfl⟩
  have fewer := removal.sublist
  have fits := inv.roomy.fits _ _ stored
  obtain ⟨pre, post, cut⟩ := append_of_mem mem
  have between := inv.shape.leaf_between cut stored
  refine ⟨heap, vl ++ (ml ++ mr) ++ vr, freed, ⟨?_, ?_⟩, values⟩
  · rw [tree]
    apply inv.setLeaf mem stored same (inv.shape.setLeaf cut stored same (between.sublist fewer))
      ⟨(btreeLeafUsedSpace_sublist cfg fewer).trans fits.1, fun x mem => fits.2 x (fewer.subset mem)⟩
    · exact fun x xMem => inv.seqnos _ _ stored x (fewer.subset xMem)
    · exact le_rfl
    · exact contents _ _ same
    · simpa using rest
    · have covered := inv.covered s mem
      simp only [entriesOf, stored] at covered
      exact removal.covered inv.snapshots between.sorted between.below covered
  · rw [tree, setLeaf_level stored same]
    exact mem

/-- If every removal keeps a property and what the readers see, so does a pass over the leaf, and it
runs through. -/
theorem scavengeNode_keeps (Good : Tree κ → List (Entry κ) → List (Entry κ × Data) → Prop)
    (remove : ∀ {t entries versions e entries'}, Good t entries versions →
      Removal t.snapshots entries e entries' →
      ∃ heap versions', freeEntryData cfg t e = some { t with ovnodes := heap } ∧
        Good { t with ovnodes := heap } entries' versions' ∧
        SameValues t.snapshots versions versions')
    (sorted : SortedBy Entry.pos entries) (good : Good t entries versions) :
    ∃ t₁ kept n versions', scavengeNode cfg t entries = some (t₁, kept, n) ∧
      Removals cfg t entries t₁ kept ∧ Good t₁ kept versions' ∧
      SameValues t.snapshots versions versions' := by
  have all : ∀ {t₁ kept}, Removals cfg t entries t₁ kept →
      ∃ versions', Good t₁ kept versions' ∧ SameValues t.snapshots versions versions' := by
    intro t₁ kept removals
    clear sorted
    induction removals generalizing versions with
    | refl => exact ⟨versions, good, fun _ _ _ => rfl⟩
    | step removal freed _ ih =>
      obtain ⟨heap, versions', freed', good', values⟩ := remove good removal
      cases freed.symm.trans freed'
      obtain ⟨versions'', good'', values'⟩ := ih good'
      exact ⟨versions'', good'', fun bound reader key =>
        (values' bound reader key).trans (values bound reader key)⟩
  have outcome := scavengeNode_outcome cfg t sorted
  generalize scavengeNode cfg t entries = result at outcome
  cases outcome with
  | failed removals removal failure =>
    obtain ⟨versions', good', -⟩ := all removals
    obtain ⟨heap, -, freed, -⟩ := remove good' removal
    cases failure.symm.trans freed
  | @done t₁ kept n removals =>
    obtain ⟨versions', good', values⟩ := all removals
    exact ⟨t₁, kept, n, versions', rfl, removals, good', values⟩

/-- The scavenger runs through, and no reader notices. -/
theorem Inv.scavenge (inv : Inv cfg t h last versions) (mem : s ∈ t.level h)
    (stored : t.nodes s.id = some (.leaf next entries)) :
    ∃ t₁ kept n versions', scavengeNode cfg t entries = some (t₁, kept, n) ∧
      Removals cfg t entries t₁ kept ∧
      (Inv cfg (t₁.setNode s.id (.leaf next kept)) h last versions' ∧
        s ∈ (t₁.setNode s.id (.leaf next kept)).level h) ∧
      SameValues t.snapshots versions versions' := by
  have sorted := inv.shape.leaf_sorted mem stored
  rw [← setNode_self stored] at inv mem
  exact scavengeNode_keeps _ (fun good removal => good.1.remove good.2 removal) sorted ⟨inv, mem⟩

end

/-! ## A new version -/

variable {obj : Obj κ} {t' : Tree κ}

/-- The value of an object: a tombstone has none. -/
def Obj.value (obj : Obj κ) : Option Data := if obj.tombstone then none else some obj.data

/-- A write is seen by the readers of the active container only. -/
structure Written (snapshots : List ℕ) (obj : Obj κ) (versions versions' : List (Entry κ × Data)) :
    Prop where
  snapshots : ∀ n ∈ snapshots, ∀ key,
    valueAt versions' key (WithTop.some n) = valueAt versions key (WithTop.some n)
  active : ∀ key, valueAt versions' key ⊤ = if key = obj.key then obj.value
    else valueAt versions key ⊤

theorem values_insert {l r : List (Entry κ × Data)} (data : Data)
    (first : ∀ v ∈ l, v.1.key < e.key) (newer : ∀ n ∈ snapshots, n < e.seqno) :
    (∀ n ∈ snapshots, ∀ key, valueAt (l ++ (e, data) :: r) key (WithTop.some n) =
      valueAt (l ++ r) key (WithTop.some n)) ∧ ∀ key, valueAt (l ++ (e, data) :: r) key ⊤ =
      if key = e.key then valueOf (e, data) else valueAt (l ++ r) key ⊤ := by
  constructor
  · intro n mem key
    unfold valueAt lookup
    rw [visible_skip fun _ => not_le.mpr (WithTop.coe_lt_coe.mpr (newer n mem))]
  · intro key
    unfold valueAt lookup
    split_ifs with same
    · subst same
      have seen : visible posOf (l ++ (e, data) :: r) (posOf (e, data)).key ⊤ = some (e, data) :=
        visible_insert (fun v mem => (first v mem).ne) le_top
      exact congrArg (Option.bind · valueOf) seen
    · rw [visible_skip fun eq => absurd eq.symm same]

omit [LinearOrder κ] in
theorem SameNodes.setNode (same : SameNodes t t') (id : ℕ) (n : Node κ) :
    SameNodes (t.setNode id n) (t'.setNode id n) :=
  { same with nodes := by simp only [Tree.setNode, same.nodes] }

/-- The leaf with the object in it, between two parts of its versions. -/
theorem Inv.commit {vl ml mr vr : List (Entry κ × Data)} {ptr : ℕ}
    (inv : Inv cfg (t.setNode s.id (.leaf next kept)) h last versions)
    (covers : Covers ((t.setNode s.id (.leaf next kept)).level h) ⟨obj.key, ⊤⟩ s)
    (fresh : last < obj.seqno) (same : SameNodes t t')
    (put : LeafPut cfg obj kept (ml.map Prod.fst ++ obj.entry cfg ptr :: mr.map Prod.fst))
    (fits : (Node.leaf next (ml.map Prod.fst ++ obj.entry cfg ptr :: mr.map Prod.fst)).Fits cfg)
    (contents : ∀ t₁ vm', SameNodes (t.setNode s.id (.leaf next kept)) t₁ →
      (vl ++ vm' ++ vr).map Prod.fst = (t₁.setNode s.id (.leaf next (vm'.map Prod.fst))).contents h)
    (data : Stored cfg t'.ovnodes t'.logical_id_counter
      (vl ++ ml ++ (obj.entry cfg ptr, obj.data) :: (mr ++ vr))) (covered : Covered t.snapshots s.hi
      (ml.map Prod.fst ++ obj.entry cfg ptr :: mr.map Prod.fst)) :
    Inv cfg (t'.setNode s.id (.leaf next (ml.map Prod.fst ++ obj.entry cfg ptr :: mr.map Prod.fst))) h
      obj.seqno (vl ++ ml ++ (obj.entry cfg ptr, obj.data) :: (mr ++ vr)) := by
  have stored := setNode_stored t s.id (.leaf next kept)
  have same' := same.setNode s.id (.leaf next kept)
  have seqnos : ∀ x ∈ ml.map Prod.fst ++ obj.entry cfg ptr :: mr.map Prod.fst,
      0 < x.seqno ∧ x.seqno ≤ obj.seqno := by
    apply put.seqnos (P := fun n => 0 < n ∧ n ≤ obj.seqno)
    · intro x mem
      have bounds := inv.seqnos _ _ stored x mem
      exact ⟨bounds.1, bounds.2.trans fresh.le⟩
    · exact ⟨Nat.zero_lt_of_lt fresh, le_rfl⟩
  have shape := LeafOf.put_shape inv.shape inv.recent fresh covers stored same' put
  have result := inv.setLeaf covers.mem stored same' shape fits seqnos fresh.le
    (by simpa using contents _ (ml ++ (obj.entry cfg ptr, obj.data) :: mr) same') data covered
  simpa only [setNode, Function.update_idem] using result

variable {l r : List (Entry κ)}

omit [LinearOrder κ] in
theorem fits_put (ptr : ℕ) (fits : (Node.leaf next kept).Fits cfg) (fewer : (l ++ r).Sublist kept)
    (short : cfg.Unwrapped (cfg.keylen obj.key) obj.data.length) (small : cfg.keylen obj.key < cfg.maxKeySize)
    (room : btreeLeafUsedSpace cfg (l ++ r) + entrySize cfg (cfg.keylen obj.key) obj.data.length ≤
      cfg.nodesizeLessHdr) : (Node.leaf next (l ++ obj.entry cfg ptr :: r)).Fits cfg := by
  constructor
  · have size : (obj.entry cfg ptr).size cfg =
        entrySize cfg (cfg.keylen obj.key) obj.data.length := rfl
    simp only [btreeLeafUsedSpace_append, btreeLeafUsedSpace_cons, size] at room ⊢
    omega
  · intro x mem
    simp only [mem_append, mem_cons] at mem
    rcases mem with inLeft | rfl | inRight
    · exact fits.2 x (fewer.subset (mem_append_left _ inLeft))
    · exact ⟨short, small⟩
    · exact fits.2 x (fewer.subset (mem_append_right _ inRight))

omit [LinearOrder κ] in
/-- More entries promise no less. -/
theorem Covered.insert (covered : Covered snapshots hi (l ++ r)) (e : Entry κ) :
    Covered snapshots hi (l ++ e :: r) := by
  intro p eq bound reader le
  obtain ⟨x, mem, rest⟩ := covered p eq bound reader le
  refine ⟨x, ?_, rest⟩
  simp only [mem_append, mem_cons] at mem ⊢
  tauto

omit [LinearOrder κ] in
theorem Covered.replace {old : Entry κ}
    (covered : Covered snapshots hi (l ++ old :: r)) (same : old.key = e.key)
    (newer : old.seqno ≤ e.seqno) (active : ∀ n ∈ snapshots, n < old.seqno) :
    Covered snapshots hi (l ++ e :: r) := by
  intro p eq bound reader le
  obtain ⟨x, mem, key, starts, upto⟩ := covered p eq bound reader le
  simp only [mem_append, mem_cons] at mem
  rcases mem with inLeft | rfl | inRight
  · exact ⟨x, by simp [inLeft], key, starts, upto⟩
  · refine ⟨e, by simp, same ▸ key, starts.trans (WithTop.coe_le_coe.mpr newer), ?_⟩
    rcases reader with rfl | ⟨n, nMem, rfl⟩
    · exact le_top
    · exact absurd (WithTop.coe_le_coe.mp upto) (not_le.mpr (active n nMem))
  · exact ⟨x, by simp [inRight], key, starts, upto⟩

variable (inv : Inv cfg (t.setNode s.id (.leaf next kept)) h last versions)
  (covers : Covers ((t.setNode s.id (.leaf next kept)).level h) ⟨obj.key, ⊤⟩ s)
  (fresh : last < obj.seqno) (short : cfg.Unwrapped (cfg.keylen obj.key) obj.data.length)
  (small : cfg.keylen obj.key < cfg.maxKeySize)
  (writable : cfg.Writable (cfg.keylen obj.key) obj.data.length)

include inv covers fresh short small writable

theorem Inv.insert
    (room : btreeLeafUsedSpace cfg kept + entrySize cfg (cfg.keylen obj.key) obj.data.length ≤
      cfg.nodesizeLessHdr) :
    ∃ t' changed versions', btreeLeafInsertLow cfg t kept obj.key obj.data obj.seqno obj.tombstone
        (btreeLeafFindKey kept obj.key .any).1 false = some (t', changed) ∧
      SameNodes t t' ∧ Inv cfg (t'.setNode s.id (.leaf next changed)) h obj.seqno versions' ∧
      Written t.snapshots obj versions versions' := by
  have stored := setNode_stored t s.id (.leaf next kept)
  have fits := inv.roomy.fits _ _ stored
  have covered := inv.covered s covers.mem
  have sorted := inv.shape.leaf_sorted covers.mem stored
  simp only [entriesOf, stored] at covered
  obtain ⟨vl, vm, vr, rfl, whole, smaller, contents⟩ := inv.focus covers.mem stored
  obtain ⟨l, r, rfl, index, before, after, -⟩ := exists_place sorted obj.key
  obtain ⟨ml, mr, rfl, rfl, rfl⟩ := map_eq_append_iff.mp whole
  have regroup : vl ++ (ml ++ mr) ++ vr = vl ++ ml ++ (mr ++ vr) := by simp
  have data := inv.stored
  rw [regroup] at data
  have fitsPut := fun ptr => fits_put ptr fits (List.Sublist.refl _) short small room
  have update := fun ptr => (btreeLeafUpdateKey_insert cfg (ml.map Prod.fst) (mr.map Prod.fst)
    (obj.entry cfg ptr)).trans (if_pos ⟨small, (fitsPut ptr).1⟩)
  obtain ⟨t', ptr, changed, inserted, updated, same, data'⟩ :=
    Stored.insertEntry (t := t) data inv.started writable fun ptr => ⟨_, update ptr⟩
  cases (update ptr).symm.trans updated
  have put : LeafPut cfg obj (ml.map Prod.fst ++ mr.map Prod.fst)
      (ml.map Prod.fst ++ obj.entry cfg ptr :: mr.map Prod.fst) := .insert before after
  refine ⟨t', _, vl ++ ml ++ (obj.entry cfg ptr, obj.data) :: (mr ++ vr), ?_, same,
    inv.commit covers fresh same put (fitsPut ptr) contents data' (covered.insert _), ?_⟩
  · rw [index]
    exact inserted
  · have first : ∀ v ∈ vl ++ ml, v.1.key < (obj.entry cfg ptr).key :=
      forall_mem_append.mpr ⟨smaller obj.key covers, forall_mem_map.mp before⟩
    obtain ⟨hidden, active⟩ := values_insert (r := mr ++ vr) obj.data first
      fun n mem => (inv.bounded n mem).trans_lt fresh
    rw [regroup]
    exact ⟨hidden, active⟩

/-- An object takes the place of the latest version of its key, which is in no
snapshot. -/
theorem Inv.replace {old : Entry κ} (latest : latestIn kept obj.key = some old)
    (active : btreeSnapFindMetaIndex t.snapshots old.seqno = none)
    (room : btreeLeafUsedSpace cfg kept + entrySize cfg (cfg.keylen obj.key) obj.data.length ≤
      cfg.nodesizeLessHdr + old.size cfg) :
    ∃ t' changed versions', btreeLeafInsertLow cfg t kept obj.key obj.data obj.seqno obj.tombstone
        (btreeLeafFindKey kept obj.key .any).1 true = some (t', changed) ∧
      SameNodes t t' ∧ Inv cfg (t'.setNode s.id (.leaf next changed)) h obj.seqno versions' ∧
      Written t.snapshots obj versions versions' := by
  have stored := setNode_stored t s.id (.leaf next kept)
  have fits := inv.roomy.fits _ _ stored
  have covered := inv.covered s covers.mem
  have sorted := inv.shape.leaf_sorted covers.mem stored
  simp only [entriesOf, stored] at covered
  have newer := snapshotFor_eq_none.mp ((btreeSnapFindMetaIndex_eq inv.snapshots _).symm.trans active)
  obtain ⟨vl, vm, vr, rfl, whole, smaller, contents⟩ := inv.focus covers.mem stored
  obtain ⟨l, r, rfl, index, before, -, latest'⟩ := exists_place sorted obj.key
  obtain ⟨r, rfl, sameKey⟩ : ∃ r', r = old :: r' ∧ old.key = obj.key := by
    rw [latest', Option.filter_eq_some_iff] at latest
    obtain ⟨r', rfl⟩ := head?_eq_some_iff.mp latest.1
    exact ⟨r', rfl, of_decide_eq_true latest.2⟩
  have bounds := inv.seqnos _ _ stored old (by simp)
  obtain ⟨ml, rest, rfl, rfl, tail⟩ := map_eq_append_iff.mp whole
  obtain ⟨⟨_, oldData⟩, mr, rfl, rfl, rfl⟩ := map_eq_cons_iff.mp tail
  rename_i old
  have regroup : vl ++ (ml ++ (old, oldData) :: mr) ++ vr =
      vl ++ ml ++ (old, oldData) :: (mr ++ vr) := by simp
  have data := inv.stored
  rw [regroup] at data
  obtain ⟨heap, freed, data⟩ := Stored.free (t := t) data
  have room' : btreeLeafUsedSpace cfg (ml.map Prod.fst ++ mr.map Prod.fst) +
      entrySize cfg (cfg.keylen obj.key) obj.data.length ≤ cfg.nodesizeLessHdr := by
    simp only [btreeLeafUsedSpace_append, btreeLeafUsedSpace_cons] at room ⊢
    omega
  have fewer : (ml.map Prod.fst ++ mr.map Prod.fst).Sublist
      (ml.map Prod.fst ++ old :: mr.map Prod.fst) :=
    List.Sublist.append_left (sublist_cons_self _ _) _
  have fitsPut := fun ptr => fits_put ptr fits fewer short small room'
  have update := fun ptr => (btreeLeafUpdateKey_replace cfg (ml.map Prod.fst) (mr.map Prod.fst)
    old (obj.entry cfg ptr)).trans (if_pos ⟨small, (fitsPut ptr).1⟩)
  obtain ⟨t', ptr, changed, inserted, updated, same, data'⟩ :=
    Stored.insertEntry (t := { t with ovnodes := heap }) data inv.started writable
      fun ptr => ⟨_, update ptr⟩
  cases (update ptr).symm.trans updated
  have sameFreed : SameNodes t { t with ovnodes := heap } := ⟨rfl, rfl, rfl, le_rfl⟩
  have same' := sameFreed.trans same
  have put : LeafPut cfg obj (ml.map Prod.fst ++ old :: mr.map Prod.fst)
      (ml.map Prod.fst ++ obj.entry cfg ptr :: mr.map Prod.fst) := .replace before sameKey
  refine ⟨t', _, vl ++ ml ++ (obj.entry cfg ptr, obj.data) :: (mr ++ vr), ?_, same',
    inv.commit covers fresh same' put (fitsPut ptr) contents data'
      (covered.replace sameKey (bounds.2.trans fresh.le) newer), ?_⟩
  · have oldThere : (ml.map Prod.fst ++ old :: mr.map Prod.fst)[(ml.map Prod.fst).length]? =
        some old := by simp
    simp only [btreeLeafInsertLow, index, if_true, oldThere, Option.bind_some, freed]
    exact inserted
  · have first : ∀ v ∈ vl ++ ml, v.1.key < obj.key :=
      forall_mem_append.mpr ⟨smaller obj.key covers, forall_mem_map.mp before⟩
    have firstOld : ∀ v ∈ vl ++ ml, v.1.key < old.key := fun v mem => sameKey ▸ first v mem
    obtain ⟨hidden, seen⟩ := values_insert (r := mr ++ vr) (e := obj.entry cfg ptr) obj.data first
      fun n mem => (inv.bounded n mem).trans_lt fresh
    obtain ⟨hiddenOld, seenOld⟩ := values_insert (r := mr ++ vr) oldData firstOld newer
    rw [regroup]
    constructor
    · intro n mem key
      rw [hidden n mem, hiddenOld n mem]
    · intro key
      have sameKey' : old.key = obj.key := sameKey
      have entryKey : (obj.entry cfg ptr).key = obj.key := rfl
      rw [seen, seenOld, sameKey', entryKey]
      by_cases here : key = obj.key
      · rw [if_pos here, if_pos here]
        rfl
      · rw [if_neg here, if_neg here, if_neg here]

end Zetascale.Btree
