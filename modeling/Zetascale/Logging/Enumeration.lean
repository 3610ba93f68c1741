import Mathlib

/-!
# Enumerating a logging container

`lc_enum_start` without a key, `lc_enum_next` and `pgstreamenumerate` in `lc.c`. The cursor is a
bucket number, a group and the objects of a group that are left; a bucket is the chain of its
groups. The walk over the table is there for any groups and any way to enumerate one, and is then
used with the groups of the container.
-/

namespace Zetascale.Logging

open List

/-! ## The table of groups -/

section

variable {G O : Type}

/-- `iter_t` -/
structure Iter (G O : Type) where
  curPgBucket : ℕ
  /-- `cur_pg`, and behind it the groups that its `containerlink` leads to -/
  curPg : List G
  /-- from `objecti` on -/
  objects : List O

inductive Status where
  | objectUnknown
  | failure

variable (enumerate : G → List O)

/-- `lc_enum_start`; `none` is `ZS_FAILURE`. -/
def lcEnumStart (buckets : List (List G)) : Option (Iter G O) :=
  let i := buckets.findIdx fun chain => !chain.isEmpty
  match buckets[i]? with
  | some (pg :: link) => some ⟨i, pg :: link, enumerate pg⟩
  | _ => none

def Iter.take (it : Iter G O) : Except Status O × Iter G O :=
  match it.objects with
  | [] => (.error .objectUnknown, it)
  | o :: os => (.ok o, { it with objects := os })

/-- `lc_enum_next` -/
def lcEnumNext (buckets : List (List G)) (it : Iter G O) : Except Status O × Iter G O :=
  if it.objects.isEmpty then
    match it.curPg.tail with
    -- `cur_pg` stays
    | pg :: _ => Iter.take { it with objects := enumerate pg }
    | [] =>
      let bucket := it.curPgBucket + 1
      -- `cur_pg_bucket` stays behind, if buckets are passed over
      match (buckets.drop bucket).find? fun chain => !chain.isEmpty with
      | some (pg :: link) => Iter.take ⟨bucket, pg :: link, enumerate pg⟩
      | _ => (.error .failure, { it with curPgBucket := bucket })
  else it.take

/-- The objects that the calls return up to the first call that returns none, and its status. -/
inductive Returns (buckets : List (List G)) : Iter G O → List O → Status → Prop
  | ended {it next : Iter G O} {status : Status}
      (step : lcEnumNext enumerate buckets it = (.error status, next)) :
      Returns buckets it [] status
  | object {it next : Iter G O} {o : O} {l : List O} {status : Status}
      (step : lcEnumNext enumerate buckets it = (.ok o, next))
      (later : Returns buckets next l status) : Returns buckets it (o :: l) status

/-- Every object of every group is returned once, and then an end. -/
def Enumerated (ends : Status → Prop) (buckets : List (List G)) : Prop :=
  ∀ it, lcEnumStart enumerate buckets = some it → ∃ l status,
    Returns enumerate buckets it l status ∧ ends status ∧ l.Nodup ∧
      ∀ o, o ∈ l ↔ ∃ pg ∈ buckets.flatten, o ∈ enumerate pg

variable (live : G → Prop) (ends : Status → Prop)

/-- What stands behind a group, in its chain and in the buckets after its own: nothing live; or the
next bucket begins with a live group and goes on like that; or buckets are passed over, and then
comes the last live group with a dead one in its chain. -/
inductive Straight : List G → List (List G) → Prop
  | done {link : List G} {rest : List (List G)} (dead : ∀ pg ∈ link ++ rest.flatten, ¬ live pg)
      (failure : link ++ rest.flatten = [] → ends .failure) : Straight link rest
  | next {pg : G} {link : List G} {rest : List (List G)} (alive : live pg)
      (behind : Straight link rest) : Straight [] ((pg :: link) :: rest)
  | gap {n : ℕ} {pg other : G} {link : List G} {rest : List (List G)} (alive : live pg)
      (dead : ∀ pg ∈ other :: link ++ rest.flatten, ¬ live pg) :
      Straight [] (replicate (n + 1) [] ++ (pg :: other :: link) :: rest)

/-- The table is straight behind its first group. -/
def StraightTable (buckets : List (List G)) : Prop :=
  ∀ n pg link rest, buckets = replicate n [] ++ (pg :: link) :: rest → Straight live ends link rest

variable {enumerate live ends} {buckets rest : List (List G)} {link gs : List G} {pg : G}
  {os l : List O} {b n : ℕ} {status : Status}

/-- Buckets without a group, and then one with a group. -/
theorem exists_first (buckets : List (List G)) : buckets.flatten = [] ∨
    ∃ n pg link rest, buckets = replicate n [] ++ (pg :: link) :: rest := by
  induction buckets with
  | nil => exact .inl rfl
  | cons chain buckets ih =>
    cases chain with
    | cons pg link => exact .inr ⟨0, pg, link, buckets, rfl⟩
    | nil =>
      rcases ih with none | ⟨n, pg, link, rest, rfl⟩
      · exact .inl none
      · exact .inr ⟨n + 1, pg, link, rest, rfl⟩

theorem find?_first (pg : G) (link : List G) (rest : List (List G)) (n : ℕ) : (replicate n [] ++ (pg :: link) :: rest).find?
    (fun chain => !chain.isEmpty) = some (pg :: link) := by
  induction n with
  | zero => rfl
  | succ n ih => exact ih

theorem lcEnumStart_first (n : ℕ) : lcEnumStart enumerate
    (replicate n [] ++ (pg :: link) :: rest) = some ⟨n, pg :: link, enumerate pg⟩ := by
  have first : (replicate n [] ++ (pg :: link) :: rest).findIdx
      (fun chain : List G => !chain.isEmpty) = n := by
    induction n with
    | zero => rfl
    | succ n ih => simp [replicate_succ, findIdx_cons, ih]
  simp [lcEnumStart, first]

/-- The objects of a group come first. -/
theorem returns_objects : Returns enumerate buckets ⟨b, gs, os⟩ l status ↔
    ∃ l', l = os ++ l' ∧ Returns enumerate buckets ⟨b, gs, []⟩ l' status := by
  induction os generalizing l with
  | nil => simp
  | cons o os ih =>
    constructor
    · rintro (⟨⟨⟩⟩ | ⟨⟨⟩, later⟩)
      obtain ⟨l', rfl, returns⟩ := ih.mp later
      exact ⟨l', rfl, returns⟩
    · rintro ⟨l', rfl, returns⟩
      exact .object rfl (ih.mpr ⟨l', rfl, returns⟩)

/-- A turn to a group: the end, or its objects and what comes behind it. -/
theorem returns_turn (turn : lcEnumNext enumerate buckets ⟨b, gs, []⟩ =
      Iter.take ⟨n, link, enumerate pg⟩) : Returns enumerate buckets ⟨b, gs, []⟩ l status ↔
    enumerate pg = [] ∧ l = [] ∧ status = .objectUnknown ∨
      enumerate pg ≠ [] ∧ ∃ l', l = enumerate pg ++ l' ∧
        Returns enumerate buckets ⟨n, link, []⟩ l' status := by
  cases objects : enumerate pg with
  | nil =>
    rw [objects] at turn
    constructor
    · rintro (step | ⟨step, -⟩) <;> cases turn.symm.trans step
      exact .inl ⟨rfl, rfl, rfl⟩
    · rintro (⟨-, rfl, rfl⟩ | ⟨some, -⟩)
      · exact .ended turn
      · exact absurd rfl some
  | cons o os =>
    rw [objects] at turn
    constructor
    · rintro (step | ⟨step, later⟩) <;> cases turn.symm.trans step
      obtain ⟨l', rfl, returns⟩ := returns_objects.mp later
      exact .inr ⟨cons_ne_nil o os, l', rfl, returns⟩
    · rintro (⟨⟨⟩, -⟩ | ⟨-, l', rfl, returns⟩)
      exact .object turn (returns_objects.mpr ⟨l', rfl, returns⟩)

/-- The second group of a chain is returned for ever. -/
theorem returns_chain {first second : G} :
    Returns enumerate buckets ⟨b, first :: second :: link, []⟩ l status ↔
      enumerate second = [] ∧ l = [] ∧ status = .objectUnknown := by
  have turn : lcEnumNext enumerate buckets ⟨b, first :: second :: link, []⟩ =
      Iter.take ⟨b, first :: second :: link, enumerate second⟩ := rfl
  constructor
  · intro returns
    -- each round has a smaller rest of the calls
    induction size : l.length using Nat.strong_induction_on generalizing l with
    | h size ih =>
      rcases (returns_turn turn).mp returns with ended | ⟨some, l', rfl, later⟩
      · exact ended
      · have shorter : l'.length < (enumerate second ++ l').length := by
          have positive := length_pos_iff.mpr some
          rw [length_append]
          omega
        exact absurd (ih _ (size ▸ shorter) later rfl).1 some
  · exact fun ended => (returns_turn turn).mpr (.inl ended)

theorem returns_last (none : (buckets.drop (b + 1)).flatten = []) :
    Returns enumerate buckets ⟨b, [pg], []⟩ l status ↔ l = [] ∧ status = .failure := by
  have found : (buckets.drop (b + 1)).find? (fun chain => !chain.isEmpty) = .none := by
    rw [find?_eq_none]
    intro chain mem
    simp [flatten_eq_nil_iff.mp none chain mem]
  have step : lcEnumNext enumerate buckets ⟨b, [pg], []⟩ = (.error .failure, ⟨b + 1, [pg], []⟩) := by
    simp [lcEnumNext, found]
  constructor
  · rintro (ended | ⟨more, -⟩)
    · cases step.symm.trans ended
      exact ⟨rfl, rfl⟩
    · cases step.symm.trans more
  · rintro ⟨rfl, rfl⟩
    exact .ended step

/-- The turn to a later bucket. -/
theorem lcEnumNext_bucket {other : G}
    (behind : buckets.drop (b + 1) = replicate n [] ++ (other :: link) :: rest) :
    lcEnumNext enumerate buckets ⟨b, [pg], []⟩ =
      Iter.take ⟨b + 1, other :: link, enumerate other⟩ := by
  simp only [lcEnumNext, isEmpty_nil, if_true, tail_cons, behind, find?_first other link rest n]

variable (alive : ∀ pg, live pg ↔ enumerate pg ≠ [])

include alive

theorem flatMap_dead (dead : ∀ pg ∈ gs, ¬ live pg) : gs.flatMap enumerate = [] := by
  rw [flatMap_eq_nil_iff]
  intro pg mem
  by_contra some
  exact dead pg mem ((alive pg).mpr some)

/-- What is straight is returned. -/
theorem Straight.returns (pg : G) (known : ends .objectUnknown)
    (straight : Straight live ends link rest) (behind : buckets.drop (b + 1) = rest) : ∃ status, ends status ∧
      Returns enumerate buckets ⟨b, pg :: link, []⟩ ((link ++ rest.flatten).flatMap enumerate)
        status := by
  induction straight generalizing b pg with
  | @done link rest dead failure =>
    rw [flatMap_dead alive dead]
    have none : ∀ g ∈ link ++ rest.flatten, enumerate g = [] := fun g mem =>
      not_not.mp (mt (alive g).mpr (dead g mem))
    cases link with
    | cons second link =>
      exact ⟨_, known, returns_chain.mpr ⟨none second mem_cons_self, rfl, rfl⟩⟩
    | nil =>
      rcases exists_first rest with empty | ⟨n, other, link, rest', rfl⟩
      · exact ⟨_, failure empty, (returns_last (behind ▸ empty)).mpr ⟨rfl, rfl⟩⟩
      · exact ⟨_, known, (returns_turn (lcEnumNext_bucket behind)).mpr
          (.inl ⟨none other (by simp), rfl, rfl⟩)⟩
  | @next other link rest some later ih =>
    have behind' : buckets.drop (b + 1 + 1) = rest := by rw [← tail_drop, behind]; rfl
    obtain ⟨status, ended, returns⟩ := ih other behind'
    refine ⟨status, ended, (returns_turn (lcEnumNext_bucket (n := 0) behind)).mpr ?_⟩
    exact .inr ⟨(alive other).mp some, _, by simp, returns⟩
  | @gap n other second link rest some dead =>
    refine ⟨_, known, (returns_turn (lcEnumNext_bucket behind)).mpr ?_⟩
    have none : enumerate second = [] :=
      not_not.mp (mt (alive second).mpr (dead second (by simp)))
    refine .inr ⟨(alive other).mp some, [], ?_, returns_chain.mpr ⟨none, rfl, rfl⟩⟩
    have empty := flatMap_dead alive dead
    simp only [cons_append, flatMap_cons, flatMap_append, append_eq_nil_iff] at empty
    simp [empty]

/-- What is returned completely and without repetition is straight. -/
theorem Returns.straight (returns : Returns enumerate buckets ⟨b, pg :: link, []⟩ l status)
    (ended : ends status) (behind : buckets.drop (b + 1) = rest) (nodup : l.Nodup)
    (apart : (link ++ rest.flatten).Pairwise fun g h => (enumerate g).Disjoint (enumerate h))
    (complete : ∀ g ∈ link ++ rest.flatten, enumerate g ⊆ l) : Straight live ends link rest := by
  induction size : rest.length using Nat.strong_induction_on generalizing b pg link rest l with
  | h size ih =>
    have finished : l = [] → (link ++ rest.flatten = [] → ends .failure) →
        Straight live ends link rest := by
      rintro rfl failure
      exact .done (fun g mem some => (alive g).mp some (subset_nil.mp (complete g mem))) failure
    cases link with
    | cons second link => exact finished (returns_chain.mp returns).2.1 nofun
    | nil =>
      rcases exists_first rest with empty | ⟨n, other, link, rest', rfl⟩
      · obtain ⟨rfl, rfl⟩ := (returns_last (behind ▸ empty)).mp returns
        exact finished rfl fun _ => ended
      rcases (returns_turn (lcEnumNext_bucket behind)).mp returns with
        ⟨-, rfl, -⟩ | ⟨some, l', rfl, later⟩
      · exact finished rfl (by simp)
      have groups : [] ++ (replicate n [] ++ (other :: link) :: rest').flatten =
          other :: (link ++ rest'.flatten) := by simp
      rw [groups] at apart complete
      obtain ⟨others, apart'⟩ := pairwise_cons.mp apart
      have complete' : ∀ g ∈ link ++ rest'.flatten, enumerate g ⊆ l' := by
        intro g mem o has
        rcases mem_append.mp (complete g (mem_cons_of_mem _ mem) has) with first | later
        · exact absurd has (others g mem first)
        · exact later
      have behind' : buckets.drop (b + 1 + 1) =
          (replicate n [] ++ (other :: link) :: rest').tail := by
        rw [← tail_drop, behind]
      cases n with
      | zero =>
        exact .next ((alive other).mpr some)
          (ih _ (by simp [← size]) later behind' nodup.of_append_right apart' complete' rfl)
      | succ n =>
        cases link with
        | nil =>
          -- the bucket is found again
          rcases (returns_turn (lcEnumNext_bucket behind')).mp later with ⟨none, -⟩ | ⟨-, l'', rfl, -⟩
          · exact absurd none some
          · obtain ⟨o, has⟩ := exists_mem_of_ne_nil _ some
            exact absurd (mem_append_left _ has) (disjoint_of_nodup_append nodup has)
        | cons second link =>
          obtain ⟨-, rfl, -⟩ := returns_chain.mp later
          exact .gap ((alive other).mpr some) fun g mem isAlive =>
            (alive g).mp isAlive (subset_nil.mp (complete' g mem))

/-- The walk over the table returns every object once if the table is straight, and only then. -/
theorem enumerated_iff (known : ends .objectUnknown)
    (apart : buckets.flatten.Pairwise fun g h => (enumerate g).Disjoint (enumerate h))
    (distinct : ∀ pg ∈ buckets.flatten, (enumerate pg).Nodup) :
    Enumerated enumerate ends buckets ↔ StraightTable live ends buckets := by
  constructor
  · rintro enumerated n pg link rest rfl
    obtain ⟨l, status, returns, ended, nodup, exactly⟩ := enumerated _ (lcEnumStart_first n)
    obtain ⟨l', rfl, later⟩ := returns_objects.mp returns
    have groups : (replicate n [] ++ (pg :: link) :: rest).flatten = pg :: (link ++ rest.flatten) := by
      simp
    rw [groups] at apart exactly
    obtain ⟨others, apart'⟩ := pairwise_cons.mp apart
    refine later.straight alive ended ?_ nodup.of_append_right apart' fun g mem o has => ?_
    · simp [drop_append]
    · rcases mem_append.mp ((exactly o).mpr ⟨g, mem_cons_of_mem _ mem, has⟩) with first | behind
      · exact absurd has (others g mem first)
      · exact behind
  · intro straight it start
    rcases exists_first buckets with empty | ⟨n, pg, link, rest, rfl⟩
    · simp only [lcEnumStart] at start
      split at start
      · next pg _ stored =>
        have listed : pg ∈ buckets.flatten :=
          mem_flatten_of_mem (mem_of_getElem? stored) mem_cons_self
        rw [empty] at listed
        cases listed
      · cases start
    · cases (lcEnumStart_first n).symm.trans start
      have behind : (replicate n [] ++ (pg :: link) :: rest).drop (n + 1) = rest := by
        simp [drop_append]
      obtain ⟨status, ended, returns⟩ := (straight n pg link rest rfl).returns alive pg known behind
      have groups : (replicate n [] ++ (pg :: link) :: rest).flatten = pg :: (link ++ rest.flatten) := by
        simp
      refine ⟨_, status, returns_objects.mpr ⟨_, rfl, returns⟩, ended, ?_, ?_⟩
      · rw [← flatMap_cons, ← groups]
        exact nodup_flatMap.mpr ⟨distinct, apart⟩
      · intro o
        rw [← flatMap_cons, ← groups, mem_flatMap]

end

/-! ## One group -/

section

variable {K N D : Type} [DecidableEq K] [DecidableEq N]

/-- A record of a stream. Keys are the same if they are so up to zeros before the counter
(`keyequal`). -/
inductive LRec (K D : Type) where
  | write (key : K) (data : D)
  | delete (key : K)

/-- `pg_t`, with the records of its stream, which other groups share -/
structure Pg (K N D : Type) where
  name : N
  /-- none while unknown -/
  trimposition : Option ℕ
  stream : List (LRec K D)

/-- `LOTABLESIZE` -/
def loTableSize : ℕ := 1024

/-- `trimmed` -/
def trimmed (trimpos : Option ℕ) (counter : ℕ) : Bool := trimpos.any (counter ≤ ·)

/-- A write in the chain of its counter: over the object of the same key, or before all. -/
def loWrite (key : K) (data : D) (chain : List (K × D)) : List (K × D) :=
  match chain.findIdx? fun o => o.1 = key with
  | none => (key, data) :: chain
  | some j => chain.set j (key, data)

-- the counter and the group of a key
variable (keydecode : K → ℕ × N)

/-- A key that is one of the group and not trimmed. -/
def Pg.concerns (pg : Pg K N D) (key : K) : Bool :=
  decide ((keydecode key).2 = pg.name) && !trimmed pg.trimposition (keydecode key).1

/-- One record in `pgstreamenumerate`; `lo` are the chains of the objects found so far. -/
def Pg.loStep (pg : Pg K N D) (lo : ℕ → List (K × D)) : LRec K D → ℕ → List (K × D)
  | .write key data =>
    if pg.concerns keydecode key then
      let i := (keydecode key).1 % loTableSize
      Function.update lo i (loWrite key data (lo i))
    else lo
  | .delete key =>
    if pg.concerns keydecode key then
      let i := (keydecode key).1 % loTableSize
      Function.update lo i ((lo i).eraseP fun o => o.1 = key)
    else lo

/-- `pgstreamenumerate`: the objects of the group, put in order by `compar`. -/
def pgstreamenumerate (compar : K × D → K × D → Prop) [DecidableRel compar] (pg : Pg K N D) :
    List (K × D) :=
  ((range loTableSize).flatMap (pg.stream.foldl (pg.loStep keydecode) fun _ => [])).insertionSort compar

/-- What a record makes of the values of the group's objects. -/
def Pg.valueStep (pg : Pg K N D) (values : K → Option D) : LRec K D → K → Option D
  | .write key data =>
    if pg.concerns keydecode key then Function.update values key (some data) else values
  | .delete key => if pg.concerns keydecode key then Function.update values key none else values

/-- The live objects of a group and their values. -/
def Pg.values (pg : Pg K N D) : K → Option D :=
  pg.stream.foldl (pg.valueStep keydecode) fun _ => none

/-- Something is live in the group. -/
def Pg.Live (pg : Pg K N D) : Prop := ∃ key, pg.values keydecode key ≠ none

/-- The chains have each live object once, in the chain of its counter. -/
structure Lists (lo : ℕ → List (K × D)) (values : K → Option D) : Prop where
  distinct : ∀ i, ((lo i).map Prod.fst).Nodup
  holds : ∀ i key data, (key, data) ∈ lo i ↔
    i = (keydecode key).1 % loTableSize ∧ values key = some data

variable {keydecode} {lo : ℕ → List (K × D)} {values : K → Option D} {chain : List (K × D)} {key : K}

omit [DecidableEq N] in
theorem loWrite_spec (key : K) (data : D) (nodup : (chain.map Prod.fst).Nodup) :
    ((loWrite key data chain).map Prod.fst).Nodup ∧
      ∀ o, o ∈ loWrite key data chain ↔ o = (key, data) ∨ o ∈ chain ∧ o.1 ≠ key := by
  unfold loWrite
  cases found : chain.findIdx? fun o => o.1 = key with
  | none =>
    simp only [findIdx?_eq_none_iff, decide_eq_false_iff_not] at found
    constructor
    · simp only [map_cons, nodup_cons, mem_map, not_exists, not_and]
      exact ⟨found, nodup⟩
    · intro o
      simp only [mem_cons]
      exact or_congr_right ⟨fun mem => ⟨mem, found o mem⟩, And.left⟩
  | some j =>
    obtain ⟨inside, same, -⟩ := findIdx?_eq_some_iff_getElem.mp found
    simp only [decide_eq_true_eq] at same
    obtain ⟨l, ⟨key', old⟩, r, rfl, rfl⟩ : ∃ l o r, chain = l ++ o :: r ∧ l.length = j :=
      ⟨chain.take j, chain[j], chain.drop (j + 1), by simp, by simp [inside.le]⟩
    simp only [getElem_append_right, le_refl, Nat.sub_self, getElem_cons_zero] at same
    subst same
    simp only [map_append, map_cons, nodup_append, nodup_cons] at nodup
    have changed : (l ++ (key', old) :: r).set l.length (key', data) = l ++ (key', data) :: r := by
      simp
    simp only [changed]
    grind

omit [DecidableEq N] in
theorem mem_eraseP_key (nodup : (chain.map Prod.fst).Nodup) (o : K × D) :
    o ∈ (chain.eraseP fun o => o.1 = key) ↔ o ∈ chain ∧ o.1 ≠ key := by
  induction chain with
  | nil => simp
  | cons first chain ih =>
    simp only [map_cons, nodup_cons, mem_map, not_exists, not_and] at nodup
    have rest := ih nodup.2
    by_cases same : first.1 = key
    · rw [eraseP_cons_of_pos (by simpa using same)]
      grind
    · rw [eraseP_cons_of_neg (by simpa using same)]
      grind

omit [DecidableEq N] in
/-- The chain of a key is changed at this key. -/
theorem Lists.update (lists : Lists keydecode lo values) {value : Option D} {i : ℕ}
    (own : i = (keydecode key).1 % loTableSize) (nodup : (chain.map Prod.fst).Nodup)
    (changed : ∀ o, o ∈ chain ↔ value = some o.2 ∧ o.1 = key ∨ o ∈ lo i ∧ o.1 ≠ key) :
    Lists keydecode (Function.update lo i chain) (Function.update values key value) where
  distinct := fun i' => by
    by_cases same : i' = i
    · rw [same, Function.update_self]
      exact nodup
    · rw [Function.update_of_ne same]
      exact lists.distinct i'
  holds := fun i' key' data' => by
    by_cases same : i' = i
    · subst same
      rw [Function.update_self, changed, lists.holds]
      by_cases sameKey : key' = key
      · subst sameKey
        simp [own]
      · simp [sameKey]
    · rw [Function.update_of_ne same, lists.holds]
      refine and_congr_right fun own' => ?_
      have other : key' ≠ key := fun sameKey => same (own'.trans (sameKey ▸ own.symm))
      rw [Function.update_of_ne other]

/-- A record keeps the chains in step with the values. -/
theorem Lists.step (pg : Pg K N D) (lists : Lists keydecode lo values) (record : LRec K D) :
    Lists keydecode (pg.loStep keydecode lo record) (pg.valueStep keydecode values record) := by
  cases record with
  | write key data =>
    simp only [Pg.loStep, Pg.valueStep]
    split_ifs
    · obtain ⟨nodup, written⟩ := loWrite_spec key data
        (lists.distinct ((keydecode key).1 % loTableSize))
      refine lists.update rfl nodup fun o => ?_
      rw [written, Prod.ext_iff, Option.some.injEq, and_comm, eq_comm (a := data)]
    · exact lists
  | delete key =>
    simp only [Pg.loStep, Pg.valueStep]
    split_ifs
    · have distinct := lists.distinct ((keydecode key).1 % loTableSize)
      have shorter := (eraseP_sublist (p := fun o : K × D => decide (o.1 = key))
        (l := lo ((keydecode key).1 % loTableSize))).map Prod.fst
      refine lists.update rfl (distinct.sublist shorter) fun o => ?_
      rw [mem_eraseP_key distinct]
      simp
    · exact lists

theorem Lists.run (pg : Pg K N D) (records : List (LRec K D)) (lists : Lists keydecode lo values) :
    Lists keydecode (records.foldl (pg.loStep keydecode) lo)
      (records.foldl (pg.valueStep keydecode) values) := by
  induction records generalizing lo values with
  | nil => exact lists
  | cons record records ih => exact ih (lists.step pg record)

theorem Pg.lists (keydecode : K → ℕ × N) (pg : Pg K N D) : Lists keydecode (pg.stream.foldl (pg.loStep keydecode) fun _ => [])
    (pg.values keydecode) :=
  Lists.run pg pg.stream ⟨fun _ => nodup_nil, fun _ _ _ => by simp⟩

variable {compar : K × D → K × D → Prop} [DecidableRel compar] {pg : Pg K N D}

/-- The objects enumerated are the live ones, with their values. -/
theorem mem_pgstreamenumerate (o : K × D) :
    o ∈ pgstreamenumerate keydecode compar pg ↔ pg.values keydecode o.1 = some o.2 := by
  simp only [pgstreamenumerate, mem_insertionSort, mem_flatMap, mem_range, (pg.lists keydecode).holds]
  constructor
  · rintro ⟨i, -, -, value⟩
    exact value
  · exact fun value => ⟨_, Nat.mod_lt _ (by decide), rfl, value⟩

/-- No key comes twice. -/
theorem nodup_pgstreamenumerate : ((pgstreamenumerate keydecode compar pg).map Prod.fst).Nodup := by
  have lists := pg.lists keydecode
  rw [pgstreamenumerate, ((perm_insertionSort compar _).map Prod.fst).nodup_iff, map_flatMap]
  refine nodup_flatMap.mpr ⟨fun i _ => lists.distinct i, ?_⟩
  refine nodup_range.imp fun {i i'} different => ?_
  rintro key first second
  obtain ⟨⟨_, data⟩, mem, rfl⟩ := mem_map.mp first
  obtain ⟨⟨_, data'⟩, mem', rfl⟩ := mem_map.mp second
  exact different (((lists.holds i _ _).mp mem).1.trans ((lists.holds i' _ _).mp mem').1.symm)

theorem Pg.valueStep_group (own : ∀ key, values key ≠ none → (keydecode key).2 = pg.name)
    (record : LRec K D) (key : K) (live : pg.valueStep keydecode values record key ≠ none) :
    (keydecode key).2 = pg.name := by
  have updated : ∀ {key' value}, pg.concerns keydecode key' = true →
      Function.update values key' value key ≠ none → (keydecode key).2 = pg.name := by
    intro key' value concerns live
    by_cases same : key = key'
    · exact same ▸ of_decide_eq_true (Bool.and_eq_true_iff.mp concerns).1
    · exact own key (by rwa [Function.update_of_ne same] at live)
  cases record with
  | write key' data =>
    simp only [Pg.valueStep] at live
    split_ifs at live with concerns
    · exact updated concerns live
    · exact own key live
  | delete key' =>
    simp only [Pg.valueStep] at live
    split_ifs at live with concerns
    · exact updated concerns live
    · exact own key live

/-- A live object is one of the group. -/
theorem Pg.group_of_live (live : pg.values keydecode key ≠ none) : (keydecode key).2 = pg.name := by
  exact foldlRecOn (motive := fun values : K → Option D =>
      ∀ key, values key ≠ none → (keydecode key).2 = pg.name)
    pg.stream _ (fun _ none => absurd rfl none)
    (fun _ own record _ => Pg.valueStep_group own record) key live

theorem Pg.live_iff (compar : K × D → K × D → Prop) [DecidableRel compar] (pg : Pg K N D) :
    pg.Live keydecode ↔ pgstreamenumerate keydecode compar pg ≠ [] := by
  constructor
  · rintro ⟨key, live⟩
    obtain ⟨data, value⟩ := Option.ne_none_iff_exists'.mp live
    exact ne_nil_of_mem ((mem_pgstreamenumerate (key, data)).mpr value)
  · intro some
    obtain ⟨o, mem⟩ := exists_mem_of_ne_nil _ some
    exact ⟨o.1, by simp [(mem_pgstreamenumerate o).mp mem]⟩

/-! ## The container -/

/-- The calls return every live object of every group once, with its value, and then an end. -/
def ContainerEnumerated (keydecode : K → ℕ × N) (compar : K × D → K × D → Prop)
    [DecidableRel compar] (ends : Status → Prop) (pgtable : List (List (Pg K N D))) : Prop :=
  ∀ it, lcEnumStart (pgstreamenumerate keydecode compar) pgtable = some it → ∃ l status,
    Returns (pgstreamenumerate keydecode compar) pgtable it l status ∧ ends status ∧
      l.Nodup ∧ ∀ o, o ∈ l ↔ ∃ pg ∈ pgtable.flatten, pg.values keydecode o.1 = some o.2

/-- A container is enumerated exactly if the live groups behind the first one stand at the head of
buckets next to each other, up to the last one; `ends` are the answers that count as the end. -/
theorem container_enumerated_iff (keydecode : K → ℕ × N) (compar : K × D → K × D → Prop)
    [DecidableRel compar] (ends : Status → Prop) (known : ends .objectUnknown)
    (pgtable : List (List (Pg K N D))) (names : (pgtable.flatten.map Pg.name).Nodup) :
    ContainerEnumerated keydecode compar ends pgtable ↔
      StraightTable (Pg.Live keydecode) ends pgtable := by
  have apart : pgtable.flatten.Pairwise fun g h => (pgstreamenumerate keydecode compar g).Disjoint
      (pgstreamenumerate keydecode compar h) := by
    refine (pairwise_map.mp names).imp fun {g h} different o inG inH => different ?_
    have ofG : (keydecode o.1).2 = g.name :=
      Pg.group_of_live (by simp [(mem_pgstreamenumerate o).mp inG])
    have ofH : (keydecode o.1).2 = h.name :=
      Pg.group_of_live (by simp [(mem_pgstreamenumerate o).mp inH])
    exact ofG.symm.trans ofH
  have walk := enumerated_iff (Pg.live_iff compar) known apart
    fun pg _ => Nodup.of_map _ nodup_pgstreamenumerate
  simpa only [ContainerEnumerated, Enumerated, mem_pgstreamenumerate] using walk

end

/-- A stream of three groups: the first one has an object with two values and one that is deleted,
the last one has nothing live. -/
def sharedStream : List (LRec (ℕ × ℕ) ℕ) :=
  [.write (1, 7) 10, .write (2, 7) 20, .write (1, 8) 30, .delete (2, 7), .write (1, 7) 11,
    .write (5, 9) 40, .delete (5, 9)]

/-- A group of the stream. -/
def groupOf (name : ℕ) : Pg (ℕ × ℕ) ℕ ℕ := ⟨name, none, sharedStream⟩

/-- The objects of a group in the order of their counters. -/
def byCounter (a b : (ℕ × ℕ) × ℕ) : Prop := a.1.1 ≤ b.1.1

instance : DecidableRel byCounter := fun a b => inferInstanceAs (Decidable (a.1.1 ≤ b.1.1))

theorem groupOf_enumerate :
    pgstreamenumerate id byCounter (groupOf 7) = [((1, 7), 11)] ∧
    pgstreamenumerate id byCounter (groupOf 8) = [((1, 8), 30)] ∧
    pgstreamenumerate id byCounter (groupOf 9) = [] := by
  decide +kernel

/-- A group without live objects behind the last live one. -/
theorem container_enumerated_threeGroups :
    ContainerEnumerated id byCounter (· = .objectUnknown)
      [[], [groupOf 7], [groupOf 8, groupOf 9]] := by
  refine (container_enumerated_iff id byCounter (· = .objectUnknown) rfl _ (by decide)).mpr ?_
  obtain ⟨-, eight, nine⟩ := groupOf_enumerate
  intro n pg link rest table
  obtain ⟨rfl, rfl⟩ : link = [] ∧ rest = [[groupOf 8, groupOf 9]] := by
    rcases n with _ | _ | _ | _ | n <;> simp [replicate_succ] at table
    exact ⟨table.1.2, table.2.symm⟩
  refine .next ((Pg.live_iff byCounter _).mpr (by simp [eight])) (.done ?_ nofun)
  intro pg mem live
  obtain rfl : pg = groupOf 9 := by simpa using mem
  exact (Pg.live_iff byCounter _).mp live nine

/-- Two groups, in buckets that are not next to each other: the object of the second is returned
twice, and the end is `ZS_FAILURE`. -/
theorem second_group_again :
    ∃ it, lcEnumStart (pgstreamenumerate id byCounter) [[groupOf 7], [], [groupOf 8]] = some it ∧
      Returns (pgstreamenumerate id byCounter) [[groupOf 7], [], [groupOf 8]] it
        [((1, 7), 11), ((1, 8), 30), ((1, 8), 30)] .failure := by
  obtain ⟨seven, eight, -⟩ := groupOf_enumerate
  have last : Returns (pgstreamenumerate id byCounter) [[groupOf 7], [], [groupOf 8]]
      ⟨2, [groupOf 8], []⟩ [] .failure := (returns_last rfl).mpr ⟨rfl, rfl⟩
  have again : Returns (pgstreamenumerate id byCounter) [[groupOf 7], [], [groupOf 8]]
      ⟨1, [groupOf 8], []⟩ [((1, 8), 30)] .failure :=
    (returns_turn (lcEnumNext_bucket (n := 0) rfl)).mpr (.inr ⟨by simp [eight], [], by simp [eight], last⟩)
  have once : Returns (pgstreamenumerate id byCounter) [[groupOf 7], [], [groupOf 8]]
      ⟨0, [groupOf 7], []⟩ [((1, 8), 30), ((1, 8), 30)] .failure :=
    (returns_turn (lcEnumNext_bucket (n := 1) rfl)).mpr
      (.inr ⟨by simp [eight], [((1, 8), 30)], by simp [eight], again⟩)
  exact ⟨_, lcEnumStart_first 0, returns_objects.mpr ⟨_, by simp [seven], once⟩⟩

end Zetascale.Logging
