import Zetascale.Lib.Machine

/-!
# The pending lists of a thread

Every operation on a tree collects what it touches in six per-thread lists and
empties them at its end: `deref_l1cache` writes and deletes what they hold, and
`btree_io_error_cleanup` takes over when a callback fails (`btree/btree_raw.c`).

The tree code between two flushes only appends to the lists. It is represented
by the pushes it makes, in order; which pushes these are depends on the tree and
is left open. The exits of the four operations, and what each exit does with the
lists, are those of the source. A run of an operation is described by a script:
the pushes, the outcomes of the callbacks, and the branches taken.
-/

namespace Zetascale.PendingLists

/-- Nonzero `btree_status_t` values that the exits distinguish or pass on. -/
inductive Error where
  | keyNotFound
  | failure
  | objectTooBig
  | rangeUpdateNeedsSpace
  | storage
  deriving DecidableEq

/-- `btree_status_t`: nothing stands for `BTREE_SUCCESS`. -/
abbrev Status := Option Error

/-- The per-thread lists, newest entry first. -/
structure Lists where
  modified : List ℕ
  referenced : List ℕ
  deleted : List ℕ
  overflow : List ℕ
  metanodes : List ℕ
  /-- `deleted_ovnodes_id`: overflow nodes to delete that were not in the cache. -/
  deletedOv : List ℕ
  deriving DecidableEq

/-- What every operation starts from and should end with. -/
def Lists.empty : Lists := ⟨[], [], [], [], [], []⟩

/-- One append to a list. -/
inductive Push where
  /-- `ref_l1cache` -/
  | reference (id : ℕ)
  /-- `modify_l1cache_node` -/
  | modify (id : ℕ)
  /-- `modify_l1cache_node` of an overflow node in storm mode -/
  | overflow (id : ℕ)
  /-- `set_metanode_modified` -/
  | metanode (id : ℕ)
  /-- `free_node` -/
  | free (id : ℕ)
  /-- the uncached branch of `delete_overflow_data` -/
  | freeUncached (id : ℕ)

/-- A node that is dirty already is not listed as modified a second time. -/
def Lists.push (l : Lists) : Push → Lists
  | .reference id => { l with referenced := id :: l.referenced }
  | .modify id => if id ∈ l.modified then l else { l with modified := id :: l.modified }
  | .overflow id => if id ∈ l.overflow then l else { l with overflow := id :: l.overflow }
  | .metanode id => { l with metanodes := id :: l.metanodes }
  | .free id => { l with deleted := id :: l.deleted }
  | .freeUncached id => { l with deletedOv := id :: l.deletedOv }

def Lists.pushAll (l : Lists) (pushes : List Push) : Lists := pushes.foldl Lists.push l

/-- `btree_io_error_cleanup` resets five counters; `deleted_ovnodes_count` is not
among them. -/
def Lists.ioErrorCleanup (l : Lists) : Lists := { Lists.empty with deletedOv := l.deletedOv }

/-- Outcomes of the callbacks of one `deref_l1cache`. -/
structure Flush where
  /-- The first failed write, if any. -/
  write : Status
  /-- The results of the delete callbacks, in order. -/
  delete : ℕ → Status

/-- The final `ret` of `deref_l1cache`: a failed write skips the deletes, and
each delete overwrites the result of the one before it. -/
def Flush.status (f : Flush) (l : Lists) : Status :=
  match f.write with
  | some error => some error
  | none =>
    match l.deleted.length + l.deletedOv.length with
    | 0 => none
    | n + 1 => f.delete n

/-- `deref_l1cache` -/
def Lists.derefL1cache (l : Lists) (f : Flush) : Lists × Status :=
  match f.status l with
  | none => (.empty, none)
  | some error => (l.ioErrorCleanup, some error)

/-- One run of `btree_raw_mwrite_low` from `restart` on. -/
inductive WriteScript where
  /-- A node cannot be read, or a split fails: `goto err_exit`. -/
  | failed (pushes : List Push) (error : Error)
  /-- The root or the parent changed under the thread: flush (it must succeed) and restart. -/
  | changed (pushes : List Push) (flush : Flush) (rest : WriteScript)
  /-- The parent has no room for a split: flush and restart. -/
  | parentFull (pushes : List Push) (flush : Flush) (rest : WriteScript)
  /-- The leaf was reached; keys were inserted or refused with `status`. -/
  | leaf (pushes : List Push) (status : Status) (flush : Flush)

/-- The loop of `btree_raw_mwrite_low`; nothing when an assertion stops the process. -/
def mwriteLoop (l : Lists) : WriteScript → Option (Lists × Status)
  | .failed pushes error => some ((l.pushAll pushes).ioErrorCleanup, some error)
  | .changed pushes flush rest =>
    match (l.pushAll pushes).derefL1cache flush with
    | (l, none) => mwriteLoop l rest
    | (_, some _) => none
  | .parentFull pushes flush rest =>
    match (l.pushAll pushes).derefL1cache flush with
    | (l, none) => mwriteLoop l rest
    -- `goto err_exit` runs the cleanup a second time
    | (l, some error) => some (l.ioErrorCleanup, some error)
  | .leaf pushes status flush =>
    match (l.pushAll pushes).derefL1cache flush with
    | (l, none) => some (l, if status = some .objectTooBig then none else status)
    | (l, some error) => some (l, some error)

/-- `btree_raw_mwrite_low` asserts that nothing is referenced when it starts. -/
def mwriteLow (l : Lists) (script : WriteScript) : Option (Lists × Status) :=
  if l.referenced = [] then mwriteLoop l script else none

/-- `btree_raw_mput`: one `btree_raw_mwrite_low` after the other, to the first failure. Its assertions
on the counters `dbg_referenced` and `locked` are left out. -/
def mput (l : Lists) : List WriteScript → Option (Lists × Status)
  | [] => some (l, none)
  | script :: rest =>
    match mwriteLow l script with
    | none => none
    | some (l, none) => mput l rest
    | some (l, some error) => some (l, some error)

/-- `btree_raw_write` is a `btree_raw_mput` of one object. -/
def write (l : Lists) (script : WriteScript) : Option (Lists × Status) := mput l [script]

/-- Where the data of the deleted entry is, and whether it can be read. -/
inductive OverflowData where
  /-- Not a big object. -/
  | inLeaf
  /-- At most one overflow node; `cached` when it is in the node cache. -/
  | single (id : ℕ) (cached : Bool)
  /-- A chain that is read node by node; the reading may fail. -/
  | chain (nodes : List (ℕ × Status))

/-- The loop of `delete_overflow_data` over a chain. -/
def deleteChain (l : Lists) : List (ℕ × Status) → Lists × Status
  | [] => (l, none)
  | (_, some error) :: _ => (l, some error)
  | (id, none) :: rest => deleteChain ((l.push (.reference id)).push (.free id)) rest

/-- `delete_overflow_data` -/
def deleteOverflowData (l : Lists) : OverflowData → Lists × Status
  | .inLeaf => (l, none)
  | .single id true => ((l.push (.reference id)).push (.free id), none)
  | .single id false => (l.push (.freeUncached id), none)
  | .chain nodes => deleteChain l nodes

/-- `delete_key_by_index_leaf` -/
def deleteKeyByIndexLeaf (l : Lists) (leaf : ℕ) (data : OverflowData) : Lists × Status :=
  deleteOverflowData (l.push (.modify leaf)) data

/-- One run of `btree_raw_delete`. -/
inductive DeleteScript where
  /-- `btree_raw_find` cannot read a node. -/
  | findFailed (error : Error)
  | keyNotFound
  /-- Forced delete from a leaf that stays full enough. -/
  | optimistic (leaf : ℕ) (data : OverflowData) (flush : Flush)
  /-- The leaf takes the tombstone, after the pushes of its scavenging. -/
  | tombstone (leaf : ℕ) (pushes : List Push) (flush : Flush)
  /-- The leaf is full, or the insert fails after scavenging: `btree_raw_write`. -/
  | tombstoneUnoptimized (pushes : List Push) (script : WriteScript)
  /-- Forced delete with rebalancing; no key buffer could be allocated. -/
  | noKeybuf
  /-- Forced delete with rebalancing; `find_rebalance` fails. -/
  | rebalanceFailed (pushes : List Push) (error : Error)
  /-- Forced delete with rebalancing. -/
  | rebalance (pushes : List Push) (flush : Flush)

/-- `btree_raw_delete` -/
def delete (l : Lists) : DeleteScript → Option (Lists × Status)
  | .findFailed error => some (l, some error)
  | .keyNotFound => some (l, some .keyNotFound)
  | .optimistic leaf data flush =>
    match deleteKeyByIndexLeaf l leaf data with
    | (l, none) => some ((l.push (.reference leaf)).derefL1cache flush)
    -- `done` is set all the same, and `deref_l1cache` is skipped
    | (l, some error) => some (l.push (.reference leaf), some error)
  | .tombstone leaf pushes flush =>
    some ((((l.pushAll pushes).push (.modify leaf)).push (.reference leaf)).derefL1cache flush)
  | .tombstoneUnoptimized pushes script => write (l.pushAll pushes) script
  | .noKeybuf => some (l, some .failure)
  | .rebalanceFailed pushes error => some ((l.pushAll pushes).ioErrorCleanup, some error)
  | .rebalance pushes flush =>
    match (l.pushAll pushes).derefL1cache flush with
    | (l, none) => some (l, none)
    | (l, some _) => some (l, some .failure)

/-- One run of `btree_raw_rupdate`. -/
inductive RupdateScript where
  /-- A node on the way to the leaf cannot be read. -/
  | readFailed (pushes : List Push) (error : Error)
  /-- `btree_rupdate_raw_leaf` updated what it could and flushes. -/
  | leaf (pushes : List Push) (status : Status) (flush : Flush)

/-- `btree_raw_rupdate` cleans up after every error, also after a flush that did. -/
def rupdate (l : Lists) : RupdateScript → Option (Lists × Status)
  | .readFailed pushes error => some ((l.pushAll pushes).ioErrorCleanup, some error)
  | .leaf pushes status flush =>
    match (l.pushAll pushes).derefL1cache flush with
    | (l, some error) => some (l.ioErrorCleanup, some error)
    | (l, none) =>
      match status with
      | none => some (l, none)
      | some error => some (l.ioErrorCleanup, some error)

/-- An operation of a thread, with everything its environment decides. -/
inductive Op where
  | write (script : WriteScript)
  | mput (scripts : List WriteScript)
  | delete (script : DeleteScript)
  | rupdate (script : RupdateScript)

/-- The lists after the operation, and what it returns. -/
def Op.run (l : Lists) : Op → Option (Lists × Status)
  | .write script => PendingLists.write l script
  | .mput scripts => PendingLists.mput l scripts
  | .delete script => PendingLists.delete l script
  | .rupdate script => PendingLists.rupdate l script

/-! ## Clean operations -/

/-- The push frees a node. -/
def Push.frees : Push → Bool
  | .free _ => true
  | .freeUncached _ => true
  | _ => false

/-- The push frees an overflow node that is not in the cache. -/
def Push.uncached : Push → Bool
  | .freeUncached _ => true
  | _ => false

/-- No push frees an overflow node that is not in the cache. -/
def Cached (pushes : List Push) : Prop := ∀ push ∈ pushes, push.uncached = false

/-- What the flush after the pushes returns. -/
def Flush.result (f : Flush) (pushes : List Push) : Status :=
  match f.write with
  | some error => some error
  | none =>
    match pushes.countP Push.frees with
    | 0 => none
    | n + 1 => f.delete n

/-- The flush after the pushes succeeds, or they free no uncached overflow node. -/
def Flush.Clean (f : Flush) (pushes : List Push) : Prop := f.result pushes = none ∨ Cached pushes

/-- No exit through `btree_io_error_cleanup` comes after an uncached overflow node was freed; `before`
are the pushes made before the first descent. -/
def WriteScript.Clean (before : List Push) : WriteScript → Prop
  | .failed pushes _ => Cached (before ++ pushes)
  | .changed _ _ rest => rest.Clean []
  | .parentFull pushes flush rest =>
    match flush.result (before ++ pushes) with
    | none => rest.Clean []
    | some _ => Cached (before ++ pushes)
  | .leaf pushes _ flush => flush.Clean (before ++ pushes)

/-- The write returns success. -/
def WriteScript.Succeeds (before : List Push) : WriteScript → Prop
  | .failed _ _ => False
  | .changed _ _ rest => rest.Succeeds []
  | .parentFull pushes flush rest => flush.result (before ++ pushes) = none ∧ rest.Succeeds []
  | .leaf pushes status flush =>
    flush.result (before ++ pushes) = none ∧ (status = some .objectTooBig ∨ status = none)

/-- The writes are clean, up to the first that fails. -/
def mputClean : List WriteScript → Prop
  | [] => True
  | script :: rest => script.Clean [] ∧ (script.Succeeds [] → mputClean rest)

/-- Every node of the overflow chain can be read. -/
def OverflowData.Readable : OverflowData → Prop
  | .chain nodes => ∀ node ∈ nodes, node.2 = none
  | _ => True

/-- The pushes of the deletion of data that can be read. -/
def OverflowData.pushes : OverflowData → List Push
  | .inLeaf => []
  | .single id true => [.reference id, .free id]
  | .single id false => [.freeUncached id]
  | .chain nodes => nodes.flatMap fun node => [.reference node.1, .free node.1]

def DeleteScript.Clean : DeleteScript → Prop
  | .optimistic _ data flush => data.Readable ∧ flush.Clean data.pushes
  | .tombstone _ pushes flush => flush.Clean pushes
  | .tombstoneUnoptimized pushes script => script.Clean pushes
  | .rebalanceFailed pushes _ => Cached pushes
  | .rebalance pushes flush => flush.Clean pushes
  | _ => True

def RupdateScript.Clean : RupdateScript → Prop
  | .readFailed pushes _ => Cached pushes
  | .leaf pushes _ flush => flush.Clean pushes

/-- The operation fails neither after an uncached overflow node was freed and before the next flush,
nor on reading the overflow chain of an entry it deletes in place. -/
def Op.Clean : Op → Prop
  | .write script => script.Clean []
  | .mput scripts => mputClean scripts
  | .delete script => script.Clean
  | .rupdate script => script.Clean

/-! ## What the lists hold -/

theorem pushAll_deletedOv (l : Lists) (pushes : List Push) :
    (l.pushAll pushes).deletedOv = [] ↔ l.deletedOv = [] ∧ Cached pushes := by
  induction pushes generalizing l with
  | nil => simp [Lists.pushAll, Cached]
  | cons push rest ih =>
    refine (ih (l.push push)).trans ?_
    cases push <;> simp [Lists.push, Cached, Push.uncached, apply_ite Lists.deletedOv]

theorem pushAll_frees (l : Lists) (pushes : List Push) :
    (l.pushAll pushes).deleted.length + (l.pushAll pushes).deletedOv.length =
      l.deleted.length + l.deletedOv.length + pushes.countP Push.frees := by
  induction pushes generalizing l with
  | nil => rfl
  | cons push rest ih =>
    rw [Lists.pushAll, List.foldl_cons, ← Lists.pushAll, ih, List.countP_cons]
    cases push <;> simp [Lists.push, Push.frees, apply_ite Lists.deleted, apply_ite Lists.deletedOv] <;>
      omega

/-- The lists after the pushes of an operation. -/
abbrev after (pushes : List Push) : Lists := Lists.empty.pushAll pushes

theorem after_append (before pushes : List Push) :
    (after before).pushAll pushes = after (before ++ pushes) := List.foldl_append.symm

theorem cached_iff {pushes : List Push} : (after pushes).deletedOv = [] ↔ Cached pushes := by
  simp [pushAll_deletedOv, Lists.empty]

theorem status_after (f : Flush) (pushes : List Push) : f.status (after pushes) = f.result pushes := by
  have frees := pushAll_frees .empty pushes
  rw [Flush.status, Flush.result, frees]
  simp [Lists.empty]

/-- After an error nothing is left just in case no uncached overflow node was freed. -/
theorem ioErrorCleanup_eq_empty {pushes : List Push} :
    (after pushes).ioErrorCleanup = .empty ↔ Cached pushes := by
  rw [← cached_iff]
  simp [Lists.ioErrorCleanup, Lists.empty]

theorem derefL1cache_eq_empty {f : Flush} {pushes : List Push} :
    ((after pushes).derefL1cache f).1 = .empty ↔ f.Clean pushes := by
  unfold Lists.derefL1cache Flush.Clean
  rw [status_after]
  cases f.result pushes <;> simp [ioErrorCleanup_eq_empty]

/-! ## The operations -/

variable {final : Lists} {ret : Status} {script : WriteScript} {before : List Push}

/-- The loop of `btree_raw_mwrite_low` never succeeds with something left. -/
theorem mwriteLoop_spec (returned : mwriteLoop (after before) script = some (final, ret)) :
    (final = .empty ↔ script.Clean before) ∧ (ret = none → final = .empty) ∧
      (ret = none ↔ script.Succeeds before) := by
  induction script generalizing before with
  | failed pushes error =>
    cases returned
    rw [after_append]
    exact ⟨ioErrorCleanup_eq_empty, nofun, nofun, nofun⟩
  | changed pushes flush rest ih =>
    simp only [mwriteLoop, Lists.derefL1cache, after_append, status_after] at returned
    cases status : flush.result (before ++ pushes) with
    | none =>
      simp only [status] at returned
      exact @ih [] returned
    | some error => simp [status] at returned
  | parentFull pushes flush rest ih =>
    simp only [mwriteLoop, Lists.derefL1cache, after_append, status_after] at returned
    cases status : flush.result (before ++ pushes) with
    | none =>
      simp only [status] at returned
      simpa only [WriteScript.Clean, WriteScript.Succeeds, status, true_and] using
        @ih [] returned
    | some error =>
      simp only [status] at returned
      cases returned
      simp only [WriteScript.Clean, WriteScript.Succeeds, status]
      exact ⟨ioErrorCleanup_eq_empty, nofun, nofun, nofun⟩
  | leaf pushes status flush =>
    simp only [mwriteLoop, Lists.derefL1cache, after_append, status_after] at returned
    cases flushed : flush.result (before ++ pushes) with
    | none =>
      simp only [flushed] at returned
      cases returned
      simp [WriteScript.Clean, WriteScript.Succeeds, Flush.Clean, flushed, or_iff_not_imp_left]
    | some error =>
      simp only [flushed] at returned
      cases returned
      simp [WriteScript.Clean, WriteScript.Succeeds, Flush.Clean, flushed, ioErrorCleanup_eq_empty]

theorem mwriteLow_spec (returned : mwriteLow (after before) script = some (final, ret)) :
    (final = .empty ↔ script.Clean before) ∧ (ret = none → final = .empty) ∧
      (ret = none ↔ script.Succeeds before) := by
  unfold mwriteLow at returned
  split at returned
  · exact mwriteLoop_spec returned
  · cases returned

theorem mput_eq_empty {scripts : List WriteScript}
    (returned : mput .empty scripts = some (final, ret)) : final = .empty ↔ mputClean scripts := by
  induction scripts with
  | nil =>
    cases returned
    simp [mputClean]
  | cons script rest ih =>
    simp only [mput] at returned
    cases result : mwriteLow .empty script with
    | none => simp [result] at returned
    | some pair =>
      obtain ⟨next, status⟩ := pair
      obtain ⟨emptyIff, success, succeeds⟩ := @mwriteLow_spec _ _ _ [] result
      rw [mputClean, ← emptyIff, ← succeeds]
      cases status with
      | none =>
        obtain rfl := success rfl
        simp only [result] at returned
        simpa using ih returned
      | some error =>
        simp only [result] at returned
        cases returned
        simp

/-- A single write, also one that starts with something pending. -/
theorem write_eq_empty (returned : write (after before) script = some (final, ret)) :
    final = .empty ↔ script.Clean before := by
  simp only [write, mput] at returned
  cases result : mwriteLow (after before) script with
  | none => simp [result] at returned
  | some pair =>
    obtain ⟨next, status⟩ := pair
    cases status <;>
    · simp only [result] at returned
      cases returned
      exact (mwriteLow_spec result).1

theorem deleteChain_spec {l : Lists} {nodes : List (ℕ × Status)} :
    ((deleteChain l nodes).2 = none ↔ ∀ node ∈ nodes, node.2 = none) ∧
      ((∀ node ∈ nodes, node.2 = none) → (deleteChain l nodes).1 =
        l.pushAll (nodes.flatMap fun node => [.reference node.1, .free node.1])) := by
  induction nodes generalizing l with
  | nil => simp [deleteChain, Lists.pushAll]
  | cons node rest ih =>
    obtain ⟨id, status⟩ := node
    cases status with
    | none => simpa [deleteChain, Lists.pushAll] using @ih ((l.push (.reference id)).push (.free id))
    | some error => simp [deleteChain]

/-- The deletion of an entry succeeds if its data can be read, and makes these pushes then. -/
theorem deleteKeyByIndexLeaf_spec {l : Lists} {leaf : ℕ} {data : OverflowData} :
    ((deleteKeyByIndexLeaf l leaf data).2 = none ↔ data.Readable) ∧
      (data.Readable → (deleteKeyByIndexLeaf l leaf data).1 =
        l.pushAll (.modify leaf :: data.pushes)) := by
  cases data with
  | inLeaf => exact ⟨iff_of_true rfl trivial, fun _ => rfl⟩
  | single id cached => cases cached <;> exact ⟨iff_of_true rfl trivial, fun _ => rfl⟩
  | chain nodes => exact deleteChain_spec

/-- Only what is freed counts for a flush. -/
theorem clean_leaf {f : Flush} {leaf : ℕ} {pushes : List Push} :
    f.Clean (.modify leaf :: (pushes ++ [.reference leaf])) ↔ f.Clean pushes := by
  simp [Flush.Clean, Flush.result, Cached, Push.frees, Push.uncached, or_imp, forall_and]

theorem delete_eq_empty {script : DeleteScript}
    (returned : delete .empty script = some (final, ret)) : final = .empty ↔ script.Clean := by
  cases script with
  | optimistic leaf data flush =>
    obtain ⟨readable, pushed⟩ := @deleteKeyByIndexLeaf_spec .empty leaf data
    simp only [delete] at returned
    rw [DeleteScript.Clean, ← readable]
    rcases deleted : deleteKeyByIndexLeaf .empty leaf data with ⟨l, status⟩
    cases status with
    | none =>
      rw [deleted] at readable pushed
      have same : l.push (.reference leaf) =
          after (.modify leaf :: (data.pushes ++ [.reference leaf])) := by
        rw [show l = _ from pushed (readable.mp rfl), ← List.cons_append]
        exact after_append _ [.reference leaf]
      simp only [deleted, same, Option.some.injEq] at returned
      have lists : (Lists.derefL1cache _ flush).1 = final := congrArg Prod.fst returned
      rw [← lists, derefL1cache_eq_empty, clean_leaf]
      simp
    | some error =>
      simp only [deleted] at returned
      cases returned
      simp [Lists.push, Lists.empty]
  | tombstone leaf pushes flush =>
    have same : ((after pushes).push (.modify leaf)).push (.reference leaf) =
        after (pushes ++ [.modify leaf, .reference leaf]) :=
      after_append pushes [.modify leaf, .reference leaf]
    simp only [delete, same, Option.some.injEq] at returned
    have lists : (Lists.derefL1cache _ flush).1 = final := congrArg Prod.fst returned
    rw [← lists, derefL1cache_eq_empty]
    simp [DeleteScript.Clean, Flush.Clean, Flush.result, Cached, Push.frees, Push.uncached, or_imp,
      forall_and]
  | tombstoneUnoptimized pushes script => exact write_eq_empty returned
  | rebalanceFailed pushes error =>
    cases returned
    exact ioErrorCleanup_eq_empty
  | rebalance pushes flush =>
    simp only [delete, Lists.derefL1cache, status_after] at returned
    cases status : flush.result pushes <;>
    · simp only [status] at returned
      cases returned
      simp [DeleteScript.Clean, Flush.Clean, status, ioErrorCleanup_eq_empty]
  | findFailed | keyNotFound | noKeybuf =>
    cases returned
    simp [DeleteScript.Clean]

theorem rupdate_eq_empty {script : RupdateScript}
    (returned : rupdate .empty script = some (final, ret)) : final = .empty ↔ script.Clean := by
  cases script with
  | readFailed pushes error =>
    cases returned
    exact ioErrorCleanup_eq_empty
  | leaf pushes status flush =>
    simp only [rupdate, Lists.derefL1cache, status_after] at returned
    cases flushed : flush.result pushes with
    | none =>
      cases status <;>
      · simp only [flushed] at returned
        cases returned
        simp [RupdateScript.Clean, Flush.Clean, flushed, Lists.ioErrorCleanup, Lists.empty]
    | some error =>
      simp only [flushed] at returned
      cases returned
      simp only [RupdateScript.Clean, Flush.Clean, flushed]
      exact ioErrorCleanup_eq_empty.trans (by simp)

/-- An operation leaves its thread's lists empty exactly when it is clean. -/
theorem run_eq_empty_iff {op : Op}
    (returned : op.run .empty = some (final, ret)) : final = .empty ↔ op.Clean := by
  cases op with
  | write script => exact @write_eq_empty _ _ _ [] returned
  | mput scripts => exact mput_eq_empty returned
  | delete script => exact delete_eq_empty returned
  | rupdate script => exact rupdate_eq_empty returned

/-- Operations of one thread, one after the other. -/
def thread (l : Lists) (op : Op) : Option Lists := (op.run l).map Prod.fst

/-- Clean operations leave nothing behind, however many follow each other. -/
theorem thread_eq_empty {ops : List Op}
    (clean : ∀ op ∈ ops, op.Clean) (reached : Machine.run thread .empty ops = some final) :
    final = .empty := by
  refine @Machine.run_induction _ _ _ _ (· = .empty) _ _ _ (fun held isClean taken => ?_) rfl
    (Machine.Admitted.of_forall clean) reached
  subst held
  obtain ⟨⟨final, ret⟩, returned, rfl⟩ := Option.map_eq_some_iff.mp taken
  exact (run_eq_empty_iff returned).mpr isClean

/-- After any number of clean operations of a thread, the next one finds its
lists empty, and leaves them so exactly when it is clean itself. -/
theorem pending_lists_empty_iff {ops : List Op} {op : Op} {l final : Lists} {ret : Status}
    (clean : ∀ op ∈ ops, op.Clean) (reached : Machine.run thread .empty ops = some l)
    (returned : op.run l = some (final, ret)) : l = .empty ∧ (final = .empty ↔ op.Clean) := by
  obtain rfl := thread_eq_empty clean reached
  exact ⟨rfl, run_eq_empty_iff returned⟩

/-- All callbacks succeed. -/
def Flush.ok : Flush := ⟨none, fun _ => none⟩

/-- A forced delete of a big object whose overflow node is not in the cache. -/
def forcedDelete : Op := .delete (.optimistic 7 (.single 9 false) .ok)

theorem forcedDelete_leaves_nothing :
    forcedDelete.run .empty = some (.empty, none) ∧ forcedDelete.Clean :=
  ⟨rfl, (@pending_lists_empty_iff [] forcedDelete .empty .empty none nofun rfl rfl).2.mp rfl⟩

/-- A forced delete whose overflow chain cannot be read returns with its leaf
still listed as modified and referenced. -/
theorem failed_forcedDelete_leaves_leaf :
    ∃ final, (Op.delete (.optimistic 7 (.chain [(9, some .storage)]) .ok)).run .empty =
        some (final, some .storage) ∧
      final.modified = [7] ∧ final.referenced = [7] ∧ final ≠ .empty :=
  ⟨_, rfl, rfl, rfl, by decide⟩

end Zetascale.PendingLists
