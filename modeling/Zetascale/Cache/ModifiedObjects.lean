import Zetascale.Cache.SlabRuns
import Zetascale.Lib.Machine

/-!
# Enumerating the modified objects

`SDFNewCacheGetModifiedObjects` fills one buffer of its caller a call. How far it is
lies in the caller's bucket index and, within that bucket, in the flag
`CE_ENUM_RECOVERY` of the entries, which all enumerations share. A call takes the lock of
a slab for each bucket, so that other enumerations, cleanups and the cache's own changes
come between any two turns of its loop.
-/

namespace Zetascale.FastCc

open List

/-- A cached entry with its flag `CE_ENUM_RECOVERY`. -/
structure FlaggedEntry extends CacheEntry where
  enumRecovery : Bool

abbrev Buckets := List (List FlaggedEntry)

/-- What a caller asks for in `SDF_cache_enum_t`. `fill` is asked for space behind what the call
has delivered. -/
structure CacheEnum where
  cguid : ℕ
  fill : List CacheEntry → CacheEntry → Bool

/-- A modified object of the container. -/
def CacheEnum.Matches (pes : CacheEnum) (pce : CacheEntry) : Prop :=
  pes.cguid = pce.id.cguid ∧ pce.state = .modified
deriving Decidable

/-- The loop over a bucket gives the bucket, the buffer and whether `fill` refused. -/
def walkBucket (pes : CacheEnum) :
    List FlaggedEntry → List CacheEntry → List FlaggedEntry × List CacheEntry × Bool
  | [], out => ([], out, false)
  | pce :: rest, out =>
    let next out := (walkBucket pes rest out).map ({ pce with enumRecovery := true } :: ·) id
    if pce.enumRecovery ∨ ¬ pes.Matches pce.toCacheEntry then next out
    else if pes.fill out pce.toCacheEntry then next (out ++ [pce.toCacheEntry])
    else (pce :: rest, out, true)

def clearEnumBits (bucket : List FlaggedEntry) : List FlaggedEntry :=
  bucket.map ({ · with enumRecovery := false })

/-- A caller with its `enum_index1`, and what is known of its calls. -/
structure Enumerator extends CacheEnum where
  enumIndex1 : ℕ
  /-- what the present call has delivered -/
  buffer : List CacheEntry
  /-- what the calls before it have delivered -/
  delivered : List CacheEntry
  /-- how many of them have come back with a full buffer -/
  calls : ℕ
  /-- the last one has left an object of the container flagged -/
  inside : Bool

def Enumerator.fresh (pes : CacheEnum) : Enumerator := ⟨pes, 0, [], [], 0, false⟩

def Enumerator.all (e : Enumerator) : List CacheEntry := e.delivered ++ e.buffer

/-- One turn of the loop in `SDFNewCacheGetModifiedObjects`: the call returns if the buffer is
full, and goes on with the next bucket otherwise. -/
def Enumerator.turn (e : Enumerator) (bucket : List FlaggedEntry) :
    Enumerator × List FlaggedEntry :=
  match walkBucket e.toCacheEnum bucket e.buffer with
  | (after, out, true) =>
    ({ e with
        buffer := []
        delivered := e.delivered ++ out
        calls := e.calls + 1
        inside := after.any fun pce => pce.enumRecovery && e.Matches pce.toCacheEntry }, after)
  | (after, out, false) =>
    ({ e with enumIndex1 := e.enumIndex1 + 1, buffer := out, inside := false }, clearEnumBits after)

/-- What the cache does with a bucket. -/
inductive BucketOp
  | create (entry : CacheEntry)
  | remove (id : ObjectKey)
  /-- `SDFNewCacheOverwriteCacheObject`, which copies the flags -/
  | overwrite (entry : CacheEntry)
  | setState (id : ObjectKey) (state : CacheState)

def BucketOp.apply : BucketOp → List FlaggedEntry → List FlaggedEntry
  | .create entry, bucket => ⟨entry, false⟩ :: bucket
  | .remove id, bucket => bucket.filter fun pce => pce.id ≠ id
  | .overwrite entry, bucket =>
    (bucket.filter fun pce => pce.id = entry.id).map (⟨entry, ·.enumRecovery⟩) ++
      bucket.filter fun pce => pce.id ≠ entry.id
  | .setState id state, bucket =>
    bucket.map fun pce => if pce.id = id then { pce with state := state } else pce

/-- The object stays there once, and modified. -/
def BucketOp.Leaves (x : ObjectKey) : BucketOp → Prop
  | .create entry => entry.id ≠ x
  | .remove id => id ≠ x
  | .overwrite entry => entry.id = x → entry.state = .modified
  | .setState id state => id = x → state = .modified

structure EnumWorld where
  buckets : Buckets
  enums : ℕ → Enumerator

inductive EnumAction
  | start (f : ℕ) (pes : CacheEnum)
  | turn (f : ℕ)
  | cleanup (f : ℕ)
  | content (b : ℕ) (op : BucketOp)

/-- One step of one caller, or of the cache. `SDFNewCacheGetModifiedObjectsCleanup` reads the bucket
of the index, also behind the last one. -/
def EnumWorld.step (w : EnumWorld) : EnumAction → Option EnumWorld
  | .start f pes => some { w with enums := Function.update w.enums f (.fresh pes) }
  | .turn f =>
    let e := w.enums f
    match w.buckets[e.enumIndex1]? with
    | none => some w
    | some bucket => some ⟨w.buckets.modify e.enumIndex1 fun bucket => (e.turn bucket).2,
        Function.update w.enums f (e.turn bucket).1⟩
  | .cleanup f =>
    let e := w.enums f
    if e.enumIndex1 < w.buckets.length then
      some ⟨w.buckets.modify e.enumIndex1 clearEnumBits,
        Function.update w.enums f { e with inside := false }⟩
    else none
  | .content b op => some { w with buckets := w.buckets.modify b op.apply }

/-- No other enumeration works on the bucket in which this one has left objects flagged, and when
this one comes to a bucket no object of its container is flagged. -/
def Undisturbed (e : ℕ) (w : EnumWorld) : EnumAction → Prop
  | .start f _ => f ≠ e
  | .turn f =>
    if f = e then (w.enums e).inside = false →
      ∀ pce ∈ w.buckets.getD (w.enums e).enumIndex1 [],
        (w.enums e).Matches pce.toCacheEntry → pce.enumRecovery = false
    else (w.enums e).inside = true → (w.enums f).enumIndex1 ≠ (w.enums e).enumIndex1
  | .cleanup f =>
    f ≠ e ∧ ((w.enums e).inside = true → (w.enums f).enumIndex1 ≠ (w.enums e).enumIndex1)
  | .content .. => True

instance (e : ℕ) (w : EnumWorld) (action : EnumAction) : Decidable (Undisturbed e w action) := by
  cases action <;> unfold Undisturbed <;> infer_instance

/-! ## What is still to come -/

variable (pes : CacheEnum) {e : Enumerator}

/-- The modified objects of the container among these entries; `skip` those with the flag. -/
def CacheEnum.view (skip : Bool) (entries : List FlaggedEntry) : List CacheEntry :=
  (entries.filter fun pce => pes.Matches pce.toCacheEntry && !(skip && pce.enumRecovery)).map
    (·.toCacheEntry)

/-- What an enumeration has before it. -/
def CacheEnum.pending (inside : Bool) : ℕ → Buckets → List CacheEntry
  | _, [] => []
  | 0, bucket :: later => pes.view inside bucket ++ pes.view false later.flatten
  | i + 1, _ :: later => CacheEnum.pending inside i later

variable {pes}

theorem view_append (skip : Bool) (l l' : List FlaggedEntry) :
    pes.view skip (l ++ l') = pes.view skip l ++ pes.view skip l' := by
  simp [CacheEnum.view]

/-- Where no object of the container is flagged, none is skipped. -/
theorem view_unflagged {skip : Bool} {entries : List FlaggedEntry} (unflagged : skip = false →
      ∀ pce ∈ entries, pes.Matches pce.toCacheEntry → pce.enumRecovery = false) :
    pes.view skip entries = pes.view true entries := by
  cases skip with
  | true => rfl
  | false =>
    unfold CacheEnum.view
    rw [filter_congr]
    intro pce mem
    by_cases matched : pes.Matches pce.toCacheEntry
    · simp [matched, unflagged rfl pce mem matched]
    · simp [matched]

/-- The loop over a bucket delivers what has no flag yet, and changes nothing but flags. -/
theorem walkBucket_spec (pes : CacheEnum) (bucket : List FlaggedEntry) (out : List CacheEntry) :
    let (after, buffer, full) := walkBucket pes bucket out
    after.map (·.toCacheEntry) = bucket.map (·.toCacheEntry) ∧
      buffer ++ pes.view true after = out ++ pes.view true bucket ∧
      if full then ∃ entry, pes.fill buffer entry = false else pes.view true after = [] := by
  induction bucket generalizing out with
  | nil => simp [walkBucket, CacheEnum.view]
  | cons pce rest ih =>
    unfold walkBucket
    split_ifs with skipped room
    · rcases skipped with flagged | other
      · simpa [CacheEnum.view, flagged] using ih out
      · simpa [CacheEnum.view, other] using ih out
    · simp_all [CacheEnum.view]
    · exact ⟨rfl, rfl, _, eq_false_of_ne_true room⟩

/-- What is before an enumeration does not change, up to `R`, if no bucket does. -/
theorem pending_modify {R : List CacheEntry → List CacheEntry → Prop} (refl : ∀ l, R l l)
    (append : ∀ {a a' b b'}, R a a' → R b b' → R (a ++ b) (a' ++ b')) {inside : Bool}
    {g : List FlaggedEntry → List FlaggedEntry} {buckets : Buckets} {i j : ℕ}
    (all : ∀ l ∈ buckets, R (pes.view false (g l)) (pes.view false l))
    (here : inside = true → j = i → ∀ l ∈ buckets, R (pes.view true (g l)) (pes.view true l)) :
    R (pes.pending inside i (buckets.modify j g)) (pes.pending inside i buckets) := by
  have later : ∀ {buckets : Buckets} {j : ℕ},
      (∀ l ∈ buckets, R (pes.view false (g l)) (pes.view false l)) →
        R (pes.view false (buckets.modify j g).flatten) (pes.view false buckets.flatten) := by
    intro buckets
    induction buckets with
    | nil => exact fun _ => by simpa using refl _
    | cons bucket buckets ih =>
      intro j all
      rw [forall_mem_cons] at all
      cases j with
      | zero =>
        simp only [modify_zero_cons, flatten_cons, view_append]
        exact append all.1 (refl _)
      | succ j =>
        simp only [modify_succ_cons, flatten_cons, view_append]
        exact append (refl _) (ih all.2)
  induction buckets generalizing i j with
  | nil => simpa using refl _
  | cons bucket buckets ih =>
    rw [forall_mem_cons] at all
    cases i with
    | zero =>
      cases j with
      | zero =>
        refine append ?_ (refl _)
        cases inside with
        | false => exact all.1
        | true => exact here rfl rfl bucket mem_cons_self
      | succ j => exact append (refl _) (later all.2)
    | succ i =>
      cases j with
      | zero => exact refl _
      | succ j =>
        exact ih all.2 fun isInside same l mem =>
          here isInside (congrArg Nat.succ same) l (mem_cons_of_mem _ mem)

/-! ## One turn -/

theorem pending_split (pes : CacheEnum) (pre post : Buckets) (bucket : List FlaggedEntry) (inside : Bool) :
    pes.pending inside pre.length (pre ++ bucket :: post) =
        pes.view inside bucket ++ pes.view false post.flatten ∧
      pes.pending false (pre.length + 1) (pre ++ bucket :: post) = pes.view false post.flatten := by
  induction pre with
  | nil =>
    refine ⟨rfl, ?_⟩
    cases post with
    | nil => rfl
    | cons next post => exact (view_append false next post.flatten).symm
  | cons first pre ih => exact ih

theorem modify_split (pre post : Buckets) (bucket : List FlaggedEntry)
    (g : List FlaggedEntry → List FlaggedEntry) :
    (pre ++ bucket :: post).modify pre.length g = pre ++ g bucket :: post := by
  induction pre with
  | nil => rfl
  | cons first pre ih => simp [ih]

/-- A turn brings what was to come. -/
theorem turn_pending {buckets : Buckets} {bucket : List FlaggedEntry}
    (stored : buckets[e.enumIndex1]? = some bucket) (unflagged : e.inside = false →
      ∀ pce ∈ bucket, e.Matches pce.toCacheEntry → pce.enumRecovery = false) :
    let after := (e.turn bucket).1
    after.toCacheEnum = e.toCacheEnum ∧
      after.all ++ e.pending after.inside after.enumIndex1
          (buckets.modify e.enumIndex1 fun bucket => (e.turn bucket).2) =
        e.all ++ e.pending e.inside e.enumIndex1 buckets ∧
      (after.calls = e.calls ∧ after.delivered = e.delivered ∨
        after.calls = e.calls + 1 ∧ ∃ out, after.delivered = e.delivered ++ out ∧
          ∃ entry, e.fill out entry = false) := by
  obtain ⟨pre, post, rfl, place⟩ : ∃ pre post, buckets = pre ++ bucket :: post ∧
      pre.length = e.enumIndex1 := by
    obtain ⟨inside, here⟩ := List.getElem?_eq_some_iff.mp stored
    exact ⟨buckets.take e.enumIndex1, buckets.drop (e.enumIndex1 + 1), by simp [← here],
      by simp [inside.le]⟩
  have before := (pending_split e.toCacheEnum pre post bucket e.inside).1
  rw [place, view_unflagged unflagged] at before
  have walked := walkBucket_spec e.toCacheEnum bucket e.buffer
  have modified := modify_split pre post bucket fun bucket => (e.turn bucket).2
  rw [place] at modified
  rw [modified]
  simp only [Enumerator.turn]
  generalize walkBucket e.toCacheEnum bucket e.buffer = result at walked
  obtain ⟨after, out, _ | _⟩ := result
  · obtain ⟨-, split, done⟩ := walked
    rw [if_neg Bool.false_ne_true] at done
    rw [done, append_nil] at split
    refine ⟨rfl, ?_, .inl ⟨rfl, rfl⟩⟩
    rw [before, ← place, (pending_split _ pre post _ false).2, Enumerator.all, split,
      Enumerator.all]
    simp
  · obtain ⟨-, split, entry, refused⟩ := walked
    refine ⟨rfl, ?_, .inr ⟨rfl, out, rfl, entry, refused⟩⟩
    rw [before, ← place, (pending_split _ pre post _ _).1, view_unflagged,
      Enumerator.all, Enumerator.all]
    · simp only [append_nil, append_assoc]
      rw [← append_assoc out, split, append_assoc]
    · intro none pce mem matched
      simp only [any_eq_false, Bool.and_eq_true, decide_eq_true_eq, not_and] at none
      exact Bool.eq_false_iff.mpr fun flagged => none pce mem flagged matched

theorem turn_entries (e : Enumerator) (bucket : List FlaggedEntry) :
    (e.turn bucket).2.map (·.toCacheEntry) = bucket.map (·.toCacheEntry) := by
  have walked := walkBucket_spec e.toCacheEnum bucket e.buffer
  simp only [Enumerator.turn]
  generalize walkBucket e.toCacheEnum bucket e.buffer = result at walked
  obtain ⟨after, out, _ | _⟩ := result
  · simp only [clearEnumBits, map_map, Function.comp_def]
    exact walked.1
  · exact walked.1

theorem view_false_congr {l l' : List FlaggedEntry}
    (same : l'.map (·.toCacheEntry) = l.map (·.toCacheEntry)) :
    pes.view false l' = pes.view false l := by
  have asMap : ∀ l, pes.view false l = (l.map (·.toCacheEntry)).filter (pes.Matches ·) := by
    intro l
    simp [CacheEnum.view, filter_map, Function.comp_def]
  rw [asMap, asMap, same]

theorem flatten_modify {g : List FlaggedEntry → List FlaggedEntry} {P : CacheEntry → Prop}
    {buckets : Buckets} (j : ℕ) (kept : ∀ bucket ∈ buckets, ∀ pce ∈ g bucket, P pce.toCacheEntry)
    (holds : ∀ pce ∈ buckets.flatten, P pce.toCacheEntry) :
    ∀ pce ∈ (buckets.modify j g).flatten, P pce.toCacheEntry := by
  induction buckets generalizing j with
  | nil => simp
  | cons bucket buckets ih =>
    rw [flatten_cons, forall_mem_append] at holds
    rw [forall_mem_cons] at kept
    cases j with
    | zero =>
      rw [modify_zero_cons, flatten_cons, forall_mem_append]
      exact ⟨kept.1, holds.2⟩
    | succ j =>
      rw [modify_succ_cons, flatten_cons, forall_mem_append]
      exact ⟨holds.1, ih j kept.2 holds.2⟩

/-! ## One action -/

variable {w w' : EnumWorld} {e : ℕ} {action : EnumAction} {x : ObjectKey}

/-- What the calls of an enumeration have brought and what is before it. -/
def EnumWorld.account (w : EnumWorld) (e : ℕ) : List CacheEntry :=
  (w.enums e).all ++
    (w.enums e).pending (w.enums e).inside (w.enums e).enumIndex1 w.buckets

/-- A step of an enumeration leaves the entries, and the account of one that it does not disturb. -/
theorem step_account (undisturbed : Undisturbed e w action) (stepped : w.step action = some w') :
    (w'.enums e).toCacheEnum = (w.enums e).toCacheEnum ∧
      ((w'.enums e).calls = (w.enums e).calls ∧ (w'.enums e).delivered = (w.enums e).delivered ∨
        (w'.enums e).calls = (w.enums e).calls + 1 ∧ ∃ out,
          (w'.enums e).delivered = (w.enums e).delivered ++ out ∧
            ∃ entry, (w.enums e).fill out entry = false) ∧
      ((∃ b op, action = .content b op ∧ w'.buckets = w.buckets.modify b op.apply ∧
          w'.enums = w.enums) ∨
        w'.account e = w.account e ∧ ∃ (j : ℕ) (g : List FlaggedEntry → List FlaggedEntry),
          w'.buckets = w.buckets.modify j g ∧
            ∀ l, (g l).map (·.toCacheEntry) = l.map (·.toCacheEntry)) := by
  have still : ∀ {j : ℕ} {g : List FlaggedEntry → List FlaggedEntry},
      (∀ l, (g l).map (·.toCacheEntry) = l.map (·.toCacheEntry)) →
      ((w.enums e).inside = true → j ≠ (w.enums e).enumIndex1) →
      (w.enums e).pending (w.enums e).inside (w.enums e).enumIndex1 (w.buckets.modify j g) =
        (w.enums e).pending (w.enums e).inside (w.enums e).enumIndex1 w.buckets := by
    intro j g same elsewhere
    exact pending_modify (R := Eq) (fun _ => rfl) (fun {_ _ _ _} first second => by rw [first, second])
      (fun l _ => view_false_congr (same l))
      fun inside here => absurd here (elsewhere inside)
  cases action with
  | start f pes =>
    cases stepped
    have other : e ≠ f := Ne.symm undisturbed
    simp only [EnumWorld.account, Function.update_of_ne other]
    exact ⟨trivial, .inl ⟨trivial, trivial⟩, .inr ⟨trivial, 0, id, by simp, fun _ => rfl⟩⟩
  | content b op =>
    cases stepped
    exact ⟨rfl, .inl ⟨rfl, rfl⟩, .inl ⟨b, op, rfl, rfl, rfl⟩⟩
  | cleanup f =>
    obtain ⟨other, elsewhere⟩ := undisturbed
    simp only [EnumWorld.step] at stepped
    split_ifs at stepped
    cases stepped
    have same : ∀ l, (clearEnumBits l).map (·.toCacheEntry) = l.map (·.toCacheEntry) := by
      simp [clearEnumBits]
    simp only [EnumWorld.account, Function.update_of_ne (Ne.symm other), still same elsewhere]
    exact ⟨trivial, .inl ⟨trivial, trivial⟩, .inr ⟨trivial, _, _, rfl, same⟩⟩
  | turn f =>
    simp only [EnumWorld.step] at stepped
    cases stored : w.buckets[(w.enums f).enumIndex1]? with
    | none =>
      rw [stored] at stepped
      cases stepped
      exact ⟨rfl, .inl ⟨rfl, rfl⟩, .inr ⟨rfl, 0, id, by simp, fun _ => rfl⟩⟩
    | some bucket =>
      rw [stored] at stepped
      cases stepped
      by_cases same : f = e
      · subst same
        rw [Undisturbed, if_pos rfl] at undisturbed
        rw [getD_eq_getElem?_getD, stored] at undisturbed
        obtain ⟨unchanged, split, called⟩ := turn_pending stored undisturbed
        simp only [EnumWorld.account, Function.update_self]
        rw [unchanged]
        exact ⟨rfl, called, .inr ⟨split, _, _, rfl, turn_entries _⟩⟩
      · rw [Undisturbed, if_neg same] at undisturbed
        simp only [EnumWorld.account, Function.update_of_ne (Ne.symm same),
          still (turn_entries _) undisturbed]
        exact ⟨trivial, .inl ⟨trivial, trivial⟩, .inr ⟨trivial, _, _, rfl, turn_entries _⟩⟩

/-- An operation of the cache that leaves an object leaves its part of what is seen. -/
theorem BucketOp.view_count {op : BucketOp} (leaves : op.Leaves x) (skip : Bool)
    {bucket : List FlaggedEntry}
    (modified : ∀ pce ∈ bucket, pce.id = x → pes.Matches pce.toCacheEntry) :
    ((pes.view skip (op.apply bucket)).map CacheEntry.id).count x =
      ((pes.view skip bucket).map CacheEntry.id).count x := by
  have counted : ∀ l : List FlaggedEntry, ((pes.view skip l).map CacheEntry.id).count x =
      l.countP fun pce => decide (pce.id = x) &&
        (decide (pes.Matches pce.toCacheEntry) && !(skip && pce.enumRecovery)) := by
    intro l
    simp only [CacheEnum.view, map_map, count, countP_map, countP_filter]
    rfl
  rw [counted, counted]
  cases op with
  | create entry => exact countP_cons_of_neg (by simp [show entry.id ≠ x from leaves])
  | remove id =>
    rw [BucketOp.apply, countP_filter]
    refine countP_congr fun pce _ => ?_
    by_cases same : pce.id = x
    · simp [same, show x ≠ id from Ne.symm leaves]
    · simp [same]
  | overwrite entry =>
    rw [BucketOp.apply, countP_append, countP_map, countP_filter, countP_filter]
    by_cases same : entry.id = x
    · refine (congrArg₂ (· + ·) (countP_congr fun pce mem => ?_)
        (countP_eq_zero.mpr fun pce _ => ?_)).trans (add_zero _)
      · by_cases own : pce.id = x
        · have matched := modified pce mem own
          have still : pes.Matches entry := ⟨matched.1.trans (by rw [own, same]), leaves same⟩
          simp [own, same, matched, still]
        · simp [own, same]
      · simp +contextual [same]
    · refine (congrArg₂ (· + ·) (countP_eq_zero.mpr fun pce _ => by simp [same])
        (countP_congr fun pce _ => ?_)).trans (zero_add _)
      by_cases own : pce.id = x
      · simp [own, Ne.symm same]
      · simp [own]
  | setState id state =>
    rw [BucketOp.apply, countP_map]
    refine countP_congr fun pce mem => ?_
    rw [Function.comp_apply]
    split_ifs with own
    · by_cases same : pce.id = x
      · subst same
        have matched := modified pce mem rfl
        simp [CacheEnum.Matches, matched.1, matched.2, show state = .modified from leaves own.symm]
      · simp [same]
    · rfl

/-- An operation that leaves an object leaves it modified. -/
theorem BucketOp.keeps_modified {op : BucketOp} (leaves : op.Leaves x) {bucket : List FlaggedEntry}
    (modified : ∀ pce ∈ bucket, pce.id = x → pes.Matches pce.toCacheEntry)
    (owned : pes.cguid = x.cguid) :
    ∀ pce ∈ op.apply bucket, pce.id = x → pes.Matches pce.toCacheEntry := by
  intro pce mem own
  cases op with
  | create entry =>
    rcases mem_cons.mp mem with rfl | before
    · exact absurd own leaves
    · exact modified pce before own
  | remove id => exact modified pce (mem_filter.mp mem).1 own
  | overwrite entry =>
    rcases mem_append.mp mem with new | before
    · obtain ⟨old, -, rfl⟩ := mem_map.mp new
      exact ⟨owned.trans (by rw [← own]), leaves own⟩
    · exact modified pce (mem_filter.mp before).1 own
  | setState id state =>
    obtain ⟨old, before, rfl⟩ := mem_map.mp mem
    split_ifs at own ⊢ with changed
    · exact ⟨owned.trans (by rw [← own]), leaves (changed.symm.trans own)⟩
    · exact modified old before own

/-! ## Whole enumerations -/

/-- The action leaves the object there once, and modified. -/
def EnumAction.Leaves (x : ObjectKey) : EnumAction → Prop
  | .content _ op => op.Leaves x
  | _ => True

/-- An object of the container that is cached once, and modified. -/
structure EnumWorld.Modified (w : EnumWorld) (pes : CacheEnum) (x : ObjectKey) : Prop where
  owned : pes.cguid = x.cguid
  modified : ∀ pce ∈ w.buckets.flatten, pce.id = x → pes.Matches pce.toCacheEntry
  once : (w.buckets.flatten.map (·.id)).count x = 1

/-- What holds of an enumeration that nothing disturbs. -/
structure Enumerating (pes : CacheEnum) (e : ℕ) (w : EnumWorld) : Prop where
  asked : (w.enums e).toCacheEnum = pes
  onlyMatching : ∀ o ∈ (w.enums e).all, pes.Matches o
  calls : (w.enums e).calls ≤ (w.enums e).delivered.length

theorem mem_pending {inside : Bool} {i : ℕ} {buckets : Buckets} {o : CacheEntry}
    (mem : o ∈ pes.pending inside i buckets) : pes.Matches o := by
  have seen : ∀ {skip l}, o ∈ pes.view skip l → pes.Matches o := by
    intro skip l mem
    obtain ⟨pce, kept, rfl⟩ := mem_map.mp mem
    exact of_decide_eq_true (Bool.and_eq_true_iff.mp (mem_filter.mp kept).2).1
  induction buckets generalizing i with
  | nil => cases i <;> cases mem
  | cons bucket buckets ih =>
    cases i with
    | zero => exact (mem_append.mp mem).elim seen seen
    | succ i => exact ih mem

theorem Enumerating.step (takes : ∀ entry, pes.fill [] entry = true) (holds : Enumerating pes e w)
    (undisturbed : Undisturbed e w action) (stepped : w.step action = some w') :
    Enumerating pes e w' := by
  obtain ⟨asked, called, effect⟩ := step_account undisturbed stepped
  refine ⟨asked.trans holds.asked, ?_, ?_⟩
  · intro o mem
    rcases effect with ⟨b, op, -, -, same⟩ | ⟨same, -⟩
    · exact holds.onlyMatching o (same ▸ mem)
    · have listed : o ∈ w.account e := same ▸ mem_append_left _ mem
      rcases mem_append.mp listed with before | ahead
      · exact holds.onlyMatching o before
      · exact holds.asked ▸ mem_pending ahead
  · rcases called with ⟨calls, delivered⟩ | ⟨calls, out, delivered, entry, refused⟩
    · rw [calls, delivered]
      exact holds.calls
    · have some : out ≠ [] := by
        rintro rfl
        rw [holds.asked, takes] at refused
        cases refused
      have more := length_pos_iff.mpr some
      have before := holds.calls
      rw [calls, delivered, length_append]
      omega

/-- An object that stays modified is on the account once. -/
structure Accounted (pes : CacheEnum) (e : ℕ) (x : ObjectKey) (w : EnumWorld) : Prop where
  asked : (w.enums e).toCacheEnum = pes
  modified : ∀ pce ∈ w.buckets.flatten, pce.id = x → pes.Matches pce.toCacheEntry
  once : ((w.account e).map CacheEntry.id).count x = 1

theorem Accounted.step (owned : pes.cguid = x.cguid) (holds : Accounted pes e x w)
    (undisturbed : Undisturbed e w action) (leaves : action.Leaves x)
    (stepped : w.step action = some w') : Accounted pes e x w' := by
  obtain ⟨asked, -, effect⟩ := step_account undisturbed stepped
  rcases effect with ⟨b, op, rfl, buckets, enums⟩ | ⟨same, j, g, buckets, entries⟩
  · have inBucket : ∀ bucket ∈ w.buckets, ∀ pce ∈ bucket, pce.id = x →
        pes.Matches pce.toCacheEntry := fun bucket mem pce own =>
      holds.modified pce (mem_flatten_of_mem mem own)
    refine ⟨asked.trans holds.asked, ?_, ?_⟩
    · rw [buckets]
      exact flatten_modify (P := fun entry => entry.id = x → pes.Matches entry) b
        (fun bucket mem => op.keeps_modified leaves (inBucket bucket mem) owned) holds.modified
    · rw [← holds.once, EnumWorld.account, EnumWorld.account, enums, buckets, map_append, map_append,
        count_append, count_append, holds.asked]
      congr 1
      exact pending_modify (R := fun l l' => (l.map CacheEntry.id).count x =
          (l'.map CacheEntry.id).count x) (fun _ => rfl)
        (fun {_ _ _ _} first second => by simp only [map_append, count_append, first, second])
        (fun l mem => op.view_count leaves false (inBucket l mem))
        fun _ _ l mem => op.view_count leaves true (inBucket l mem)
  · refine ⟨asked.trans holds.asked, ?_, same ▸ holds.once⟩
    rw [buckets]
    refine flatten_modify (P := fun entry => entry.id = x → pes.Matches entry) j ?_ holds.modified
    intro bucket mem pce own same
    have listed : pce.toCacheEntry ∈ bucket.map (·.toCacheEntry) :=
      entries bucket ▸ mem_map_of_mem own
    obtain ⟨old, before, toSame⟩ := mem_map.mp listed
    rw [← toSame] at same ⊢
    exact holds.modified old (mem_flatten_of_mem mem before) same

theorem pending_start (pes : CacheEnum) (buckets : Buckets) :
    pes.pending false 0 buckets = pes.view false buckets.flatten := by
  cases buckets with
  | nil => rfl
  | cons bucket buckets => exact (view_append false bucket buckets.flatten).symm

theorem pending_end {inside : Bool} {i : ℕ} {buckets : Buckets} (behind : buckets.length ≤ i) :
    pes.pending inside i buckets = [] := by
  induction buckets generalizing i with
  | nil => cases i <;> rfl
  | cons bucket buckets ih =>
    cases i with
    | zero => cases behind
    | succ i => exact ih (Nat.le_of_succ_le_succ behind)

theorem Accounted.start (fresh : w.enums e = .fresh pes) (cached : w.Modified pes x) :
    Accounted pes e x w := by
  refine ⟨by rw [fresh]; rfl, cached.modified, ?_⟩
  rw [← cached.once, EnumWorld.account, fresh]
  change ((pes.pending false 0 w.buckets).map CacheEntry.id).count x = _
  rw [pending_start]
  simp only [CacheEnum.view, map_map, count, countP_map, countP_filter]
  refine countP_congr fun pce mem => ?_
  by_cases own : pce.id = x
  · simp [own, cached.modified pce mem own]
  · simp [own]

/-- An enumeration that nothing disturbs: every call that comes back with a full buffer has brought
something, only modified objects of the container are brought, and an object that stays modified is
brought once when the last bucket is done. Without changes of the cache no more is brought than
there is. -/
theorem enumeration_exact (pes : CacheEnum) (takes : ∀ entry, pes.fill [] entry = true) (e : ℕ)
    (w final : EnumWorld) (fresh : w.enums e = .fresh pes) (actions : List EnumAction)
    (undisturbed : Machine.Admitted EnumWorld.step (Undisturbed e) w actions)
    (reached : Machine.run EnumWorld.step w actions = some final) :
    (∀ o ∈ (final.enums e).all, pes.Matches o) ∧
    (final.enums e).calls ≤ (final.enums e).delivered.length ∧
    ((∀ action ∈ actions, ∀ b op, action ≠ .content b op) →
      (final.enums e).all.length ≤ (pes.view false w.buckets.flatten).length) ∧
    ∀ x, w.Modified pes x → (∀ action ∈ actions, action.Leaves x) →
      ((final.enums e).all.map CacheEntry.id).count x ≤ 1 ∧
      (final.buckets.length ≤ (final.enums e).enumIndex1 →
        ((final.enums e).all.map CacheEntry.id).count x = 1) := by
  have started : Enumerating pes e w := by
    refine ⟨by rw [fresh]; rfl, ?_, ?_⟩ <;> rw [fresh]
    · exact forall_mem_nil _
    · exact le_rfl
  have enumerating := Machine.run_induction (Enumerating.step takes) started undisturbed reached
  refine ⟨enumerating.onlyMatching, enumerating.calls, fun frozen => ?_, fun x cached leaves => ?_⟩
  · have kept : ∀ {w₁ action w₂}, w₁.account e = w.account e →
        Undisturbed e w₁ action ∧ (∀ b op, action ≠ .content b op) → w₁.step action = some w₂ →
        w₂.account e = w.account e := by
      intro w₁ action w₂ same ok stepped
      rcases (step_account ok.1 stepped).2.2 with ⟨b, op, isContent, -⟩ | ⟨kept, -⟩
      · exact absurd isContent (ok.2 b op)
      · exact kept.trans same
    have account := Machine.run_induction kept rfl (undisturbed.and (.of_forall frozen)) reached
    have listed : w.account e = pes.view false w.buckets.flatten := by
      rw [EnumWorld.account, fresh, ← pending_start]
      rfl
    rw [← listed, ← account, EnumWorld.account, length_append]
    exact Nat.le_add_right _ _
  · have accounted := Machine.run_induction
      (fun holds ok stepped => Accounted.step cached.owned holds ok.1 ok.2 stepped)
      (.start fresh cached) (undisturbed.and (.of_forall leaves)) reached
    have once := accounted.once
    rw [EnumWorld.account, map_append, count_append] at once
    refine ⟨by omega, fun done => ?_⟩
    rw [pending_end done] at once
    exact once

def modifiedEntry (cguid : ℕ) (key : UInt8) : CacheEntry :=
  { sampleEntry with id := ⟨cguid, [key]⟩, state := .modified }

/-- A caller whose buffer takes one object. -/
def oneAtATime (cguid : ℕ) : CacheEnum := ⟨cguid, fun out _ => out.isEmpty⟩

/-- Two buckets with objects of the containers 1 and 2. -/
def twoBuckets : EnumWorld where
  buckets := [[modifiedEntry 1 1, modifiedEntry 2 2, modifiedEntry 1 3], [modifiedEntry 1 4]].map
    (·.map (⟨·, false⟩))
  enums _ := .fresh (oneAtATime 1)

/-- An enumeration of container 2 is done with the first bucket before the one of container 1 comes
to it, and in the second while that one is in the first; an object is overwritten and another one is
created between the calls. -/
def interleaved : List EnumAction :=
  [.start 1 (oneAtATime 2), .turn 1, .turn 0, .content 0 (.overwrite (modifiedEntry 1 3)),
    .content 1 (.create (modifiedEntry 1 5)), .turn 1, .turn 0, .turn 0, .turn 0, .turn 0]

theorem enumeration_exact_interleaved :
    (Machine.run EnumWorld.step twoBuckets interleaved).map
        (fun final => ((final.enums 0).all.map (·.id.key), (final.enums 0).calls)) =
      some ([[1], [3], [5], [4]], 3) ∧
    ∃ final, Machine.run EnumWorld.step twoBuckets interleaved = some final ∧
      ((final.enums 0).all.map CacheEntry.id).count ⟨1, [4]⟩ = 1 := by
  refine ⟨by decide, _, rfl, ?_⟩
  refine ((enumeration_exact (oneAtATime 1) (fun _ => rfl) 0 twoBuckets _ rfl interleaved ?_
    rfl).2.2.2 ⟨1, [4]⟩ ⟨rfl, ?_, ?_⟩ ?_).2 ?_
  · decide
  · decide
  · decide
  · simp [interleaved, EnumAction.Leaves, BucketOp.Leaves, modifiedEntry]
  · decide

/-- A call for container 2 flags an object of container 1, so that the enumeration of container 1
misses it; and its last turn clears the flag of what container 2 was given, which gets it again. -/
theorem flags_of_another_enumeration :
    (Machine.run EnumWorld.step
        { twoBuckets with
          buckets := [[modifiedEntry 1 1, modifiedEntry 2 2, modifiedEntry 2 3].map (⟨·, false⟩)] }
        [.start 1 (oneAtATime 2), .turn 1, .turn 0, .turn 1]).map
      (fun final => ((final.enums 0).enumIndex1, (final.enums 0).all.map (·.id.key),
        (final.enums 1).delivered.map (·.id.key))) = some (1, [], [[2], [2]]) := by
  decide

end Zetascale.FastCc
