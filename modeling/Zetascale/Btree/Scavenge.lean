import Zetascale.Btree.Snapshots

/-!
# Scavenging a leaf

`scavenge_node_all_keys` (`btree/btree_scavenger.c`) runs over a leaf before an
object is written to it and removes versions that no reader can ask for, as
long as the leaf stays at least half full. `Removal` says which versions these are.
-/

namespace Zetascale.Btree

open List Option

section

variable {κ : Type} [LinearOrder κ] (cfg : Config κ)

/-- `is_leaf_minimal_after_delete`. -/
def isLeafMinimalAfterDelete (entries : List (Entry κ)) : Bool :=
  decide (2 * btreeLeafUsedSpace cfg entries < cfg.nodesizeLessHdr)

/-- `delete_key_by_index_leaf`. -/
def deleteKeyByIndexLeaf (t : Tree κ) (entries : List (Entry κ)) (index : ℕ) :
    Option (Tree κ × List (Entry κ)) := do
  let e ← entries[index]?
  let freed ← freeEntryData cfg t e
  some (freed, entries.eraseIdx index)

/-- The loop of `scavenge_node_all_keys`: `i` is the entry looked at, `ks_prev`
the one before it, `duplicate_keys` and `deleting_keys` count the older
versions of the present key, `set_start_index` is its first version. -/
def scavengeLoop : ℕ → Tree κ → List (Entry κ) → ℕ → Option (KeyStuff κ) → ℕ → ℕ → ℕ → ℕ →
    Option (Tree κ × List (Entry κ) × ℕ)
  | 0, t, entries, _, _, _, _, _, scavenged_keys => some (t, entries, scavenged_keys)
  | fuel + 1, t, entries, i, ks_prev, duplicate_keys, deleting_keys, set_start_index,
      scavenged_keys =>
      match entries[i]? with
      | none => some (t, entries, scavenged_keys)
      | some current =>
        if some current.key = ks_prev.map KeyStuff.key then
          if ks_prev.map (fun ks => btreeSnapFindMetaIndex t.snapshots ks.seqno) =
              some (btreeSnapFindMetaIndex t.snapshots current.seqno) then
            if isLeafMinimalAfterDelete cfg entries then some (t, entries, scavenged_keys)
            else
              match deleteKeyByIndexLeaf cfg t entries i with
              | none => none
              | some (t', entries') =>
                scavengeLoop fuel t' entries' i ks_prev (duplicate_keys + 1)
                  (deleting_keys + 1) set_start_index (scavenged_keys + 1)
          else
            scavengeLoop fuel t entries (i + 1) (some current.stuff) (duplicate_keys + 1)
              deleting_keys set_start_index scavenged_keys
        else if duplicate_keys ≠ 0 ∧ duplicate_keys = deleting_keys ∧
            btreeLeafIsKeyTombstoned entries set_start_index then
          if isLeafMinimalAfterDelete cfg entries then some (t, entries, scavenged_keys)
          else
            match deleteKeyByIndexLeaf cfg t entries set_start_index with
            | none => none
            | some (t', entries') =>
              scavengeLoop fuel t' entries' i ks_prev 0 0 set_start_index (scavenged_keys + 1)
        else
          scavengeLoop fuel t entries (i + 1) (some current.stuff) 0 0 i scavenged_keys

/-- `scavenge_node`: the tree, the entries left and how many were removed. -/
def scavengeNode (t : Tree κ) (entries : List (Entry κ)) :
    Option (Tree κ × List (Entry κ) × ℕ) :=
  scavengeLoop cfg entries.length t entries 0 none 0 0 0 0

end

/-! ## What is removed -/

variable {κ : Type}

theorem deleteKeyByIndexLeaf_eq (cfg : Config κ) (t : Tree κ) (l r : List (Entry κ))
    (e : Entry κ) : deleteKeyByIndexLeaf cfg t (l ++ e :: r) l.length =
      (freeEntryData cfg t e).map fun t' => (t', l ++ r) := by
  have there : (l ++ e :: r)[l.length]? = some e := by simp
  have erased : (l ++ e :: r).eraseIdx l.length = l ++ r := by simp [eraseIdx_append]
  simp only [deleteKeyByIndexLeaf, there, erased, bind_eq_bind, bind_some]
  cases freeEntryData cfg t e <;> rfl

variable [LinearOrder κ]

/-- A version that can go: the one before it is of the same key and in the same
snapshot, or it is a tombstone and the next entry is of another key. -/
inductive Removal (snapshots : List ℕ) : List (Entry κ) → Entry κ → List (Entry κ) → Prop
  | shadowed {l r : List (Entry κ)} {a b : Entry κ} (same : a.key = b.key)
      (together : btreeSnapFindMetaIndex snapshots a.seqno =
        btreeSnapFindMetaIndex snapshots b.seqno) :
      Removal snapshots (l ++ a :: b :: r) b (l ++ a :: r)
  | expired {l r : List (Entry κ)} {a b : Entry κ} (dead : a.tombstone = true)
      (other : a.key ≠ b.key) : Removal snapshots (l ++ a :: b :: r) a (l ++ b :: r)

/-- Removals one after another, with their overflow data freed. -/
inductive Removals (cfg : Config κ) : Tree κ → List (Entry κ) → Tree κ → List (Entry κ) → Prop
  | refl {t : Tree κ} {entries : List (Entry κ)} : Removals cfg t entries t entries
  | step {t t' t'' : Tree κ} {e : Entry κ} {entries entries' entries'' : List (Entry κ)}
      (removal : Removal t.snapshots entries e entries') (freed : freeEntryData cfg t e = some t')
      (rest : Removals cfg t' entries' t'' entries'') : Removals cfg t entries t'' entries''

/-- Where the loop is between the entries before and after `i`. -/
inductive ScavengeAt (front back : List (Entry κ)) : Option (KeyStuff κ) → ℕ → ℕ → ℕ → Prop
  | after {f : List (Entry κ)} {p : Entry κ} {duplicate_keys deleting_keys set_start_index : ℕ}
      (last : front = f ++ [p])
      (start : set_start_index + duplicate_keys = f.length + deleting_keys) :
      ScavengeAt front back (some p.stuff) duplicate_keys deleting_keys set_start_index
  | apart {ks_prev : Option (KeyStuff κ)} {deleting_keys set_start_index : ℕ}
      (other : ∀ ks, ks_prev = some ks → ∀ e ∈ back, e.key ≠ ks.key) :
      ScavengeAt front back ks_prev 0 deleting_keys set_start_index

/-- How the loop can end. It fails only where the overflow data of a version
cannot be freed. -/
inductive ScavengeOutcome (cfg : Config κ) (t : Tree κ) (entries : List (Entry κ))
    (scavenged_keys : ℕ) : Option (Tree κ × List (Entry κ) × ℕ) → Prop
  | failed {t₁ : Tree κ} {e : Entry κ} {entries₁ entries₂ : List (Entry κ)}
      (removals : Removals cfg t entries t₁ entries₁)
      (removal : Removal t₁.snapshots entries₁ e entries₂)
      (failure : freeEntryData cfg t₁ e = none) : ScavengeOutcome cfg t entries scavenged_keys none
  | done {t' : Tree κ} {kept : List (Entry κ)} {n : ℕ} (removals : Removals cfg t entries t' kept)
      (more : scavenged_keys ≤ n) (unchanged : n = scavenged_keys → t' = t ∧ kept = entries) :
      ScavengeOutcome cfg t entries scavenged_keys (some (t', kept, n))

variable {cfg : Config κ} {t t' : Tree κ} {entries entries' : List (Entry κ)} {e : Entry κ}

omit [LinearOrder κ] in
theorem ScavengeOutcome.step {n : ℕ} (removal : Removal t.snapshots entries e entries')
    (freed : freeEntryData cfg t e = some t') {result : Option (Tree κ × List (Entry κ) × ℕ)}
    (outcome : ScavengeOutcome cfg t' entries' (n + 1) result) :
    ScavengeOutcome cfg t entries n result := by
  cases outcome with
  | failed removals last failure => exact .failed (.step removal freed removals) last failure
  | done removals more unchanged =>
    exact .done (.step removal freed removals) (by omega) (by omega)

omit [LinearOrder κ] in
theorem Removal.sublist {snapshots : List ℕ} (removal : Removal snapshots entries e entries') :
    entries'.Sublist entries := by
  cases removal with
  | shadowed => exact List.Sublist.append_left (.cons_cons _ (sublist_cons_self _ _)) _
  | expired => exact List.Sublist.append_left (sublist_cons_self _ _) _

theorem scavengeLoop_outcome {front back : List (Entry κ)} {ks_prev : Option (KeyStuff κ)}
    {duplicate_keys deleting_keys set_start_index : ℕ} (sorted : SortedBy Entry.pos (front ++ back))
    (scan : ScavengeAt front back ks_prev duplicate_keys deleting_keys set_start_index)
    (fuel scavenged_keys : ℕ) : ScavengeOutcome cfg t (front ++ back) scavenged_keys
      (scavengeLoop cfg fuel t (front ++ back) front.length ks_prev duplicate_keys deleting_keys
        set_start_index scavenged_keys) := by
  induction fuel generalizing t front back ks_prev duplicate_keys deleting_keys set_start_index
    scavenged_keys with
  | zero => exact .done .refl le_rfl fun _ => ⟨rfl, rfl⟩
  | succ fuel ih =>
    have stay : ScavengeOutcome cfg t (front ++ back) scavenged_keys
        (some (t, front ++ back, scavenged_keys)) :=
      .done .refl le_rfl fun _ => ⟨rfl, rfl⟩
    unfold scavengeLoop
    cases back with
    | nil =>
      have atEnd : (front ++ [])[front.length]? = none := by simp
      simp only [atEnd]
      exact stay
    | cons current back =>
      have there : (front ++ current :: back)[front.length]? = some current := by simp
      have moved : front ++ current :: back = front ++ [current] ++ back := by simp
      have movedLength : front.length + 1 = (front ++ [current]).length := by simp
      simp only [there]
      by_cases same : some current.key = ks_prev.map KeyStuff.key
      · rw [if_pos same]
        cases scan with
        | apart other =>
          obtain ⟨ks, rfl, key⟩ := map_eq_some_iff.mp same.symm
          exact absurd key.symm (other ks rfl current mem_cons_self)
        | @after f p _ _ _ last start =>
          subst last
          have sameKey : p.key = current.key := (some.inj same).symm
          split_ifs with together minimal
          · exact stay
          · -- the older version goes, the loop stays behind `p`
            have shadowed : Removal t.snapshots (f ++ [p] ++ current :: back) current
                (f ++ [p] ++ back) := by
              simpa using Removal.shadowed sameKey (some.inj together)
            rw [deleteKeyByIndexLeaf_eq]
            cases freed : freeEntryData cfg t current with
            | none => exact .failed .refl shadowed freed
            | some t' =>
              apply ScavengeOutcome.step shadowed freed
              exact ih (sorted.sublist shadowed.sublist) (.after rfl (by omega)) _
          · rw [moved, movedLength]
            apply ih (moved ▸ sorted)
            refine .after rfl ?_
            simp
            omega
      · rw [if_neg same]
        split_ifs with expired minimal
        · exact stay
        · -- a tombstone with nothing left below it goes, and `current` is passed over
          obtain ⟨some', all, dead⟩ := expired
          cases scan with
          | apart => exact absurd rfl some'
          | @after f p _ _ _ last start =>
            subst last
            obtain rfl : set_start_index = f.length := by omega
            have other : p.key ≠ current.key := fun eq => same (congrArg some eq.symm)
            have regroup : f ++ [p] ++ current :: back = f ++ p :: (current :: back) := by simp
            have regroup' : f ++ current :: back = f ++ [current] ++ back := by simp
            have lengths : (f ++ [p]).length = (f ++ [current]).length := by simp
            rw [regroup] at sorted dead ⊢
            have tombstone : p.tombstone = true := by
              simpa [btreeLeafIsKeyTombstoned] using dead
            have removal : Removal t.snapshots (f ++ p :: current :: back) p
                (f ++ current :: back) := .expired tombstone other
            rw [deleteKeyByIndexLeaf_eq]
            cases freed : freeEntryData cfg t p with
            | none => exact .failed .refl removal freed
            | some t' =>
              apply ScavengeOutcome.step removal freed
              have sorted' := sorted.sublist removal.sublist
              rw [regroup'] at sorted' ⊢
              rw [lengths]
              apply ih sorted' (.apart _)
              rintro ks ⟨⟩ e mem
              exact sorted.key_ne_of_next other e (mem_cons_of_mem _ mem)
        · rw [moved, movedLength]
          exact ih (moved ▸ sorted) (.after rfl rfl) _

theorem scavengeNode_outcome (cfg : Config κ) (t : Tree κ) (sorted : SortedBy Entry.pos entries) :
    ScavengeOutcome cfg t entries 0 (scavengeNode cfg t entries) := by
  have start : SortedBy Entry.pos ([] ++ entries) := sorted
  exact scavengeLoop_outcome start (.apart (by simp)) entries.length 0

end Zetascale.Btree
