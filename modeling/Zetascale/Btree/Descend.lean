import Zetascale.Btree.Room

/-!
# The descent of a write

The descent changes the structure by a sequence of `Reshape` steps, and when it
arrives at a leaf, the leaf is the one for the key. `ChildAt` is what holds on
the way: the node looked at covers the key, and its parent has it at the index
that the descent carries. `DescentOutcome` says how one pass can end.
-/

namespace Zetascale.Btree

open List Option

variable {κ : Type} [LinearOrder κ]

/-- A sequence of structural changes. -/
inductive Reshapes (cfg : Config κ) : Tree κ → ℕ → Tree κ → ℕ → Prop
  | refl {t : Tree κ} {h : ℕ} : Reshapes cfg t h t h
  | step {t t' t'' : Tree κ} {h h' h'' : ℕ} (change : Reshape cfg t h t' h')
      (rest : Reshapes cfg t' h' t'' h'') : Reshapes cfg t h t'' h''

variable {cfg : Config κ} {t t' : Tree κ} {h h' : ℕ}

section

variable {t'' : Tree κ} {h'' : ℕ}

theorem Reshapes.trans (first : Reshapes cfg t h t' h') (second : Reshapes cfg t' h' t'' h'') :
    Reshapes cfg t h t'' h'' := by
  induction first with
  | refl => exact second
  | step change _ ih => exact .step change (ih second)

section

variable (changes : Reshapes cfg t h t' h')

include changes

theorem Reshapes.shape (shape : Shape t h) : Shape t' h' := by
  induction changes with
  | refl => exact shape
  | step change _ ih => exact ih (change.shape shape)

theorem Reshapes.seqnos {P : ℕ → Prop} (seqnos : t.Seqnos P) : t'.Seqnos P := by
  induction changes with
  | refl => exact seqnos
  | step change _ ih => exact ih (change.seqnos seqnos)

theorem Reshapes.roomy (roomy : t.Roomy cfg) : t'.Roomy cfg := by
  induction changes with
  | refl => exact roomy
  | step change _ ih => exact ih (change.roomy roomy)

theorem Reshapes.snapshots : t'.snapshots = t.snapshots := by
  induction changes with
  | refl => rfl
  | step change _ ih => rw [ih, change.snapshots]

end

end

/-! ## The latest version in a leaf -/

/-- The latest version of a key among sorted entries. -/
abbrev latestIn (entries : List (Entry κ)) (key : κ) : Option (Entry κ) :=
  visible Entry.pos entries key ⊤

variable {key : κ} {l r : List (Entry κ)} {last : Entry κ}

/-- A key above the left half is in the right half, if at all. -/
theorem latestIn_right (sorted : SortedBy Entry.pos (l ++ [last] ++ r)) (above : last.key < key) :
    latestIn (l ++ [last] ++ r) key = latestIn r key := by
  have upto := (sorted_halves sorted).1
  apply visible_append_right
  intro e mem same
  have keyLe : e.key ≤ last.key := Pos.key_le_of_le (upto e mem)
  exact absurd same (keyLe.trans_lt above).ne

/-- A key not above the left half has its latest version there, if at all. -/
theorem latestIn_left (sorted : SortedBy Entry.pos (l ++ [last] ++ r)) (upto : key ≤ last.key) :
    latestIn (l ++ [last] ++ r) key = latestIn (l ++ [last]) key := by
  have beyond := (sorted_halves sorted).2
  unfold latestIn
  rw [visible_append]
  cases left : visible Entry.pos (l ++ [last]) key ⊤ with
  | some e => rfl
  | none =>
    rw [none_or, visible_eq_none]
    intro e mem same
    have lastNe : last.key ≠ key := fun sameLast =>
      visible_eq_none.mp left last (by simp) sameLast le_top
    have keyLe : last.key ≤ e.key := Pos.key_le_of_le (beyond e mem).le
    exact absurd same ((lt_of_le_of_ne upto lastNe.symm).trans_le keyLe).ne'

/-! ## A child that covers a key -/

/-- The slot `s` covers the key, and so does the slot `sp` of its parent, which
has it at `nk`. -/
structure ChildAt (t : Tree κ) (d : ℕ) (key : κ) (sp : Slot (Pos κ)) (nk : ℕ)
    (s : Slot (Pos κ)) : Prop where
  above : Covers (t.level d) ⟨key, ⊤⟩ sp
  parent : ∃ level next keys rightmost, t.nodes sp.id = some (.nonleaf level next keys rightmost) ∧
    nk ≤ keys.length ∧ slotAt keys rightmost sp.hi nk = s
  covers : Covers (t.level (d + 1)) ⟨key, ⊤⟩ s

/-- The leaf of a key, with its entries. -/
def LeafOf (t : Tree κ) (h : ℕ) (key : κ) (s : Slot (Pos κ)) (entries : List (Entry κ)) : Prop :=
  Covers (t.level h) ⟨key, ⊤⟩ s ∧ ∃ next, t.nodes s.id = some (.leaf next entries)

/-- The leaves of one tree are those of another. -/
def SameLeaves (t : Tree κ) (h : ℕ) (t' : Tree κ) (h' : ℕ) : Prop :=
  t'.level h' = t.level h ∧ ∀ s ∈ t.level h, t'.nodes s.id = t.nodes s.id

/-- A node with room for one more separator. -/
def NotFull (cfg : Config κ) (t : Tree κ) (id : ℕ) : Prop :=
  ∀ level next keys rightmost, t.nodes id = some (.nonleaf level next keys rightmost) →
    isNodeFullNonLeaf cfg keys = false

variable {d nk : ℕ} {s sp : Slot (Pos κ)} {entries : List (Entry κ)}

section

variable {c : ℕ} {hi : WithTop (Pos κ)} {plevel pnext prightmost : ℕ} {front back : List (Sep κ)}

theorem LeafOf.congr (leaf : LeafOf t h key s entries)
    (same : SameLeaves t h t' h') : LeafOf t' h' key s entries := by
  obtain ⟨covers, next, stored⟩ := leaf
  exact ⟨same.1.symm ▸ covers, next, (same.2 s covers.mem).trans stored⟩

theorem ChildAt.exists_cut (childAt : ChildAt t d key sp nk s) : ∃ level next front back rightmost,
      t.nodes sp.id = some (.nonleaf level next (front ++ back) rightmost) ∧ nk = front.length ∧
      slotAt (front ++ back) rightmost sp.hi front.length = s := by
  obtain ⟨level, next, keys, rightmost, stored, bound, child⟩ := childAt.parent
  have lengthEq : (keys.take nk).length = nk := by
    rw [length_take]
    omega
  refine ⟨level, next, keys.take nk, keys.drop nk, rightmost, ?_, lengthEq.symm, ?_⟩
  · rw [take_append_drop]
    exact stored
  · rw [take_append_drop, lengthEq]
    exact child

omit [LinearOrder κ] in
theorem slotAt_right {bound : WithTop (Pos κ)} (s : Sep κ) (newId : ℕ)
    (child : slotAt (front ++ back) prightmost bound front.length = ⟨c, hi⟩) :
    slotAt (front ++ s :: (repointed back prightmost newId).1) (repointed back prightmost newId).2
      bound (front.length + 1) = ⟨newId, hi⟩ := by
  cases back with
  | nil =>
    have same : prightmost = c ∧ bound = hi := by simpa [slotAt] using child
    simp [slotAt, repointed, same.2]
  | cons x rest =>
    have same : x.ptr = c ∧ (x.pos : WithTop (Pos κ)) = hi := by simpa [slotAt] using child
    have moved : (({ x with ptr := newId } : Sep κ).pos : WithTop (Pos κ)) = hi := same.2
    simp [slotAt, repointed, moved]

theorem ChildAt.split {sep : Sep κ} {node left right : Node κ} (shape : Shape t h)
    (above : Covers (t.level d) ⟨key, ⊤⟩ sp) (covers : Covers (t.level (d + 1)) ⟨key, ⊤⟩ ⟨c, hi⟩)
    (child : slotAt (front ++ back) prightmost sp.hi front.length = ⟨c, hi⟩) (ptr : sep.ptr = c)
    (split : Splitting t h d sp (.nonleaf plevel pnext (front ++ back) prightmost)
      (.nonleaf plevel pnext (front ++ sep :: (repointed back prightmost t.logical_id_counter).1)
        (repointed back prightmost t.logical_id_counter).2) node left right c sep.pos hi) :
    let t' := t.splitNodes c left right sp.id
      (.nonleaf plevel pnext (front ++ sep :: (repointed back prightmost t.logical_id_counter).1)
        (repointed back prightmost t.logical_id_counter).2)
    (sep.key < key → ChildAt t' d key sp (front.length + 1) ⟨t.logical_id_counter, hi⟩) ∧
      (key ≤ sep.key → ChildAt t' d key sp front.length ⟨c, sep.pos⟩) := by
  intro t'
  obtain ⟨pre, post, cut, cut'⟩ := split.level_child shape
  have above' : Covers (t'.level d) ⟨key, ⊤⟩ sp := by
    rw [split.level_above shape le_rfl]
    exact above
  have parentNode : t'.nodes sp.id = some (.nonleaf plevel pnext (front ++ sep ::
      (repointed back prightmost t.logical_id_counter).1)
      (repointed back prightmost t.logical_id_counter).2) := by
    simp [t', Tree.splitNodes_nodes]
  have ascending := shape.ascending split.lt
  have before : ∀ x ∈ pre, x.hi < ((⟨key, ⊤⟩ : Pos κ) : WithTop (Pos κ)) := by
    intro x xMem
    have less : x.hi < hi := by
      rw [cut] at ascending
      exact (pairwise_append.mp ascending).2.2 x xMem ⟨c, hi⟩ mem_cons_self
    exact covers.before ascending (by simp [cut, xMem]) less
  constructor
  · intro beyond
    refine ⟨above', ⟨_, _, _, _, parentNode, by simp, slotAt_right _ _ child⟩, ?_⟩
    refine ⟨pre ++ [⟨c, sep.pos⟩], post, by simp [t', cut'], ?_, covers.upto⟩
    intro x xMem
    rcases mem_append.mp xMem with inPre | isLeft
    · exact before x inPre
    · rw [mem_singleton.mp isLeft]
      exact WithTop.coe_lt_coe.mpr (Pos.lt_top_iff.mpr beyond)
  · intro upto
    exact ⟨above', ⟨_, _, _, _, parentNode, by simp, by simp [slotAt, ptr]⟩, pre,
      ⟨t.logical_id_counter, hi⟩ :: post, cut', before,
      WithTop.coe_le_coe.mpr (Pos.top_le_iff.mpr upto)⟩

/-- The search in a node that covers the key: it only fails in a node without
keys. -/
theorem searchNode_spec (cfg : Config κ) (shape : Shape t h) (lt : d < h)
    (above : Covers (t.level d) ⟨key, ⊤⟩ sp) : searchNode t sp.id key .any = none ∧ ¬ t.Roomy cfg ∨
      ∃ nk s, searchNode t sp.id key .any = some (nk, s.id) ∧ ChildAt t d key sp nk s := by
  obtain ⟨next, keys, rightmost, stored⟩ := shape.nonleaf lt above.mem
  have sorted := (shape.keys_sorted lt above.mem stored).1
  by_cases expected : keys ≠ [] ∨ (sp.id == t.rootid) = true
  · right
    refine ⟨_, slotAt keys rightmost sp.hi (cutIndex Sep.pos keys (SeqFilter.any.place key)), ?_,
      above, ⟨_, _, _, _, stored, cutIndex_le_length _ _, rfl⟩,
      shape.covers_child lt above stored⟩
    simp only [searchNode, stored, findKeyNonLeaf_eq sorted expected, slotAt_id]
    rfl
  · left
    obtain ⟨empty, notRoot⟩ := not_or.mp expected
    rw [ne_eq, not_not] at empty
    subst empty
    constructor
    · simp only [searchNode, stored, findKeyNonLeaf, if_neg notRoot]
      rfl
    · intro roomy
      exact notRoot (beq_iff_eq.mpr (roomy.keyed _ _ _ _ stored))

end

/-! ## Splitting leaves -/

/-- Whether the loop of `btree_msplit_child` has to split the leaf again. -/
def needsSplit (cfg : Config κ) (obj : Obj κ) (entries : List (Entry κ)) : Bool :=
  btreeLeafIsFullIndex cfg entries obj.key obj.data.length
    (btreeLeafFindKey entries obj.key .any).2 (btreeLeafFindKey entries obj.key .any).1

/-- The half of a leaf in which a key belongs after the leaf is split. -/
def halfFor (cfg : Config κ) (entries : List (Entry κ)) (key : κ) : List (Entry κ) :=
  match btreeLeafFindSplitIdx cfg entries with
  | none => entries
  | some index =>
    match entries[index]? with
    | none => entries
    | some last => if last.key < key then entries.drop (index + 1) else entries.take (index + 1)

/-- What the loop makes of the leaf of a key: it goes on with the half of the key until
one is not split again. -/
inductive HalvedTo (cfg : Config κ) (obj : Obj κ) : List (Entry κ) → List (Entry κ) → Prop
  | last {entries : List (Entry κ)}
      (enough : needsSplit cfg obj (halfFor cfg entries obj.key) = false) :
      HalvedTo cfg obj entries (halfFor cfg entries obj.key)
  | again {entries entries' : List (Entry κ)}
      (more : needsSplit cfg obj (halfFor cfg entries obj.key) = true)
      (rest : HalvedTo cfg obj (halfFor cfg entries obj.key) entries') :
      HalvedTo cfg obj entries entries'

/-- How the loop of `btree_msplit_child` can end at a leaf with these entries. -/
inductive MsplitOutcome (cfg : Config κ) (obj : Obj κ) (t : Tree κ) (d : ℕ) (sp : Slot (Pos κ))
    (entries : List (Entry κ)) : Option (Tree κ × Option ℕ) → Prop
  | stuck (few : t.Roomy cfg → cfg.Unwrapped (cfg.keylen obj.key) obj.data.length → entries.length < 2) :
      MsplitOutcome cfg obj t d sp entries none
  | split {t' : Tree κ} {nk' : ℕ} {s' : Slot (Pos κ)} {entries' : List (Entry κ)}
      (changes : Reshapes cfg t (d + 1) t' (d + 1)) (childAt : ChildAt t' d obj.key sp nk' s')
      (leaf : LeafOf t' (d + 1) obj.key s' entries')
      (latest : latestIn entries' obj.key = latestIn entries obj.key)
      (halved : HalvedTo cfg obj entries entries') :
      MsplitOutcome cfg obj t d sp entries (some (t', some s'.id))
  | full {t' : Tree κ} {s' : Slot (Pos κ)} {entries' : List (Entry κ)}
      (changes : Reshapes cfg t (d + 1) t' (d + 1))
      (leaf : LeafOf t' (d + 1) obj.key s' entries')
      (latest : latestIn entries' obj.key = latestIn entries obj.key)
      (upto : entries'.length ≤ entries.length)
      (progress : ¬ NotFull cfg t sp.id ∨ entries'.length < entries.length ∧
        needsSplit cfg obj (halfFor cfg entries obj.key) = true)
      (parentFull : ¬ NotFull cfg t' sp.id) :
      MsplitOutcome cfg obj t d sp entries (some (t', none))

variable {obj : Obj κ}

theorem HalvedTo.notFull {entries' : List (Entry κ)} (halved : HalvedTo cfg obj entries entries') :
    needsSplit cfg obj entries' = false := by
  induction halved with
  | last enough => exact enough
  | again _ _ ih => exact ih

/-- A half that is not split again is the end. -/
theorem HalvedTo.once {entries' : List (Entry κ)} (halved : HalvedTo cfg obj entries entries')
    (enough : needsSplit cfg obj (halfFor cfg entries obj.key) = false) :
    entries' = halfFor cfg entries obj.key := by
  cases halved with
  | last _ => rfl
  | again more _ => cases more.symm.trans enough

/-- The half for a key, in terms of the entries around the cut. -/
theorem halfFor_eq (chosen : btreeLeafFindSplitIdx cfg (l ++ [last] ++ r) = some l.length) :
    halfFor cfg (l ++ [last] ++ r) key = if last.key < key then r else l ++ [last] := by
  have half : l.length + 1 = (l ++ [last]).length := by simp
  have lastThere : (l ++ [last] ++ r)[l.length]? = some last := by simp
  simp only [halfFor, chosen, lastThere]
  rw [half, take_left, drop_left]

/-- One turn of the loop: it is stuck, the parent is full, or the leaf is split
and the loop goes on with the half of the key. -/
theorem ChildAt.msplitLeaf_step (shape : Shape t (d + 1)) (positive : t.Positive)
    (childAt : ChildAt t d obj.key sp nk s) (leaf : LeafOf t (d + 1) obj.key s entries) (fuel : ℕ) :
    (msplitLeaf cfg obj (fuel + 1) t sp.id nk s.id = none ∧ (t.Roomy cfg → entries.length < 2)) ∨
    (msplitLeaf cfg obj (fuel + 1) t sp.id nk s.id = some (t, none) ∧ ¬ NotFull cfg t sp.id) ∨
    ∃ t₁ nk₁ s₁, Reshape cfg t (d + 1) t₁ (d + 1) ∧ ChildAt t₁ d obj.key sp nk₁ s₁ ∧
      LeafOf t₁ (d + 1) obj.key s₁ (halfFor cfg entries obj.key) ∧
      (halfFor cfg entries obj.key).length < entries.length ∧
      latestIn (halfFor cfg entries obj.key) obj.key = latestIn entries obj.key ∧
      msplitLeaf cfg obj (fuel + 1) t sp.id nk s.id =
        if needsSplit cfg obj (halfFor cfg entries obj.key) then
          msplitLeaf cfg obj fuel t₁ sp.id nk₁ s₁.id
        else some (t₁, some s₁.id) := by
  obtain ⟨plevel, pnext, front, back, prightmost, stored, rfl, child⟩ := childAt.exists_cut
  obtain ⟨covers, next, leafNode⟩ := leaf
  obtain ⟨c, hi⟩ := s
  rw [msplitLeaf]
  simp only [leafNode, stored]
  cases chosen : btreeLeafFindSplitIdx cfg entries with
  | none =>
    left
    refine ⟨rfl, fun _ => ?_⟩
    by_contra two
    obtain ⟨index, isIndex⟩ := btreeLeafFindSplitIdx_isSome cfg (not_lt.mp two)
    cases chosen.symm.trans isIndex
  | some index =>
    simp only [bind_eq_bind, bind_some]
    obtain ⟨l, last, r, rfl, rfl, more⟩ := exists_halves (btreeLeafFindSplitIdx_lt chosen)
    have lastPositive : 0 < last.seqno := positive _ _ leafNode last (by simp)
    by_cases parentFull : isNodeFullNonLeaf cfg (front ++ back) = true
    · right; left
      simp only [if_pos parentFull, true_and]
      intro notFull
      rw [notFull _ _ _ _ stored] at parentFull
      cases parentFull
    simp only [if_neg parentFull,
      shape.splitLeaf_eq stored child childAt.above.mem leafNode more lastPositive]
    by_cases fits : vnodeUsedSpace cfg (front ++ back) + (sizeofVkey + cfg.keylen last.key) ≤
      cfg.nodesizeLessHdr
    case neg =>
      left
      simp only [if_neg fits, bind_none, true_and]
      refine fun roomy => absurd ?_ fits
      have short := ((roomy.fits _ _ leafNode).2 last (by simp)).2
      exact room_of_not_full parentFull short
    right; right
    simp only [if_pos fits, bind_some]
    have splitting : Splitting t (d + 1) d sp _ _ _ (.leaf t.logical_id_counter (l ++ [last]))
        (.leaf next r) c last.pos hi :=
      splitting_of_parent (s := ⟨last.key, last.seqno, c⟩) (Nat.lt_succ_self d) childAt.above.mem
        stored child leafNode rfl (fun _ kind => kind) (fun _ kind => kind) rfl
    have change := Reshape.leaf splitting fits more
    obtain ⟨right, left⟩ := ChildAt.split shape childAt.above covers child rfl splitting
    obtain ⟨-, -, -, -, -, leftNode, rightNode⟩ := splitting.leaf_level shape
    have sorted := shape.leaf_sorted covers.mem leafNode
    have half : l.length + 1 = (l ++ [last]).length := by simp
    have moreLength := length_pos_iff.mpr more
    rw [halfFor_eq chosen]
    by_cases above : last.key < obj.key
    · rw [if_pos above]
      refine ⟨_, _, _, change, right above, ⟨(right above).covers, _, rightNode⟩,
        by simp; omega, (latestIn_right sorted above).symm, ?_⟩
      simp only [above, decide_true, if_true]
      rw [half, drop_left]
      rfl
    · have upto : obj.key ≤ last.key := not_lt.mp above
      rw [if_neg above]
      refine ⟨_, _, _, change, left upto, ⟨(left upto).covers, _, leftNode⟩,
        by simp; omega, (latestIn_left sorted upto).symm, ?_⟩
      simp only [above, decide_false, if_false, Bool.false_eq_true]
      rw [half, take_left]
      rfl

/-- The whole loop. -/
theorem ChildAt.msplitLeaf_outcome (cfg : Config κ) (shape : Shape t (d + 1))
    (positive : t.Positive) (childAt : ChildAt t d obj.key sp nk s)
    (leaf : LeafOf t (d + 1) obj.key s entries) {fuel : ℕ} (enough : entries.length ≤ fuel) :
    MsplitOutcome cfg obj t d sp entries (msplitLeaf cfg obj fuel t sp.id nk s.id) := by
  induction fuel generalizing t nk s entries with
  | zero =>
    exact .stuck fun _ _ => by omega
  | succ fuel ih =>
    rcases childAt.msplitLeaf_step shape positive leaf fuel with ⟨stuck, few⟩ | ⟨stop, full⟩ |
      ⟨t₁, nk₁, s₁, change, at₁, leaf₁, shorter, latest, next⟩
    · rw [stuck]
      exact .stuck fun roomy _ => few roomy
    · rw [stop]
      exact .full .refl leaf rfl le_rfl (.inl full) full
    · rw [next]
      split_ifs with again
      · have outcome := ih (change.shape shape) (change.seqnos positive) at₁ leaf₁ (by omega)
        generalize msplitLeaf cfg obj fuel t₁ sp.id nk₁ s₁.id = result at outcome
        cases outcome with
        | stuck few =>
          refine .stuck fun roomy short => ?_
          obtain ⟨-, next₁, stored₁⟩ := leaf₁
          have roomy₁ := change.roomy roomy
          have two := two_of_full (roomy₁.fits _ _ stored₁) short again
          have less := few roomy₁ short
          omega
        | split changes at' leaf' latest' halved =>
          exact .split (.step change changes) at' leaf' (latest'.trans latest) (.again again halved)
        | full changes leaf' latest' upto _ parentFull =>
          exact .full (.step change changes) leaf' (latest'.trans latest)
            (upto.trans shorter.le) (.inr ⟨upto.trans_lt shorter, again⟩) parentFull
      · exact .split (.step change .refl) at₁ leaf₁ latest (.last (Bool.eq_false_iff.mpr again))

/-! ## Splitting non-leaves -/

variable {roomy : Prop} {parent : Option (ℕ × ℕ)}

/-- The split of a full non-leaf: it only fails when keys do not fit, and it
ends with the half of the key. -/
theorem ChildAt.msplitNonLeaf_spec (shape : Shape t h) (positive : t.Positive)
    (childAt : ChildAt t d key sp nk s) (inner : d + 1 < h) {level next rightmost : ℕ}
    {keys : List (Sep κ)} (stored : t.nodes s.id = some (.nonleaf level next keys rightmost))
    (full : isNodeFullNonLeaf cfg keys = true) (sizes : roomy → t.Roomy cfg)
    (room : roomy → NotFull cfg t sp.id) : (msplitNonLeaf cfg t sp.id nk s.id = none ∧ ¬ roomy) ∨
      ∃ t₁ nk₁ s₁, msplitNonLeaf cfg t sp.id nk s.id = some t₁ ∧ Reshape cfg t h t₁ h ∧
        ChildAt t₁ d key sp nk₁ s₁ ∧ (s₁.id = s.id ∨ s₁.id = t.logical_id_counter) ∧
        SameLeaves t h t₁ h ∧ (roomy → NotFull cfg t₁ s₁.id) := by
  obtain ⟨plevel, pnext, front, back, prightmost, parentNode, rfl, child⟩ := childAt.exists_cut
  obtain ⟨c, hi⟩ := s
  by_cases cut : splitCopyCount cfg (cfg.nodesizeLessHdr / 2) keys 0 ≠ 0 ∧
      splitCopyCount cfg (cfg.nodesizeLessHdr / 2) keys 0 < keys.length
  case neg =>
    left
    constructor
    · simp only [msplitNonLeaf, stored]
      rw [if_pos (by omega)]
    · exact fun holds => cut (splitCopyCount_of_full ((sizes holds).fits _ _ stored) full)
  obtain ⟨kl, promoted, kr, rfl, more, count, half, past⟩ := splitCopyCount_cut cut.1 cut.2
  have promotedPositive : 0 < promoted.seqno := positive _ _ stored promoted (by simp)
  rw [shape.msplitNonLeaf_eq parentNode child inner childAt.above.mem stored count more
    promotedPositive]
  by_cases fits : vnodeUsedSpace cfg (front ++ back) + promoted.size cfg ≤ cfg.nodesizeLessHdr
  case neg =>
    left
    rw [if_neg fits]
    refine ⟨rfl, fun holds => fits ?_⟩
    have short := ((sizes holds).fits _ _ stored).2 promoted (by simp)
    exact room_of_not_full (Bool.eq_false_iff.mp (room holds _ _ _ _ parentNode)) short
  right
  rw [if_pos fits]
  have splitting : Splitting t h d sp _ _ _ (.nonleaf level t.logical_id_counter kl promoted.ptr)
      (.nonleaf level next kr rightmost) c promoted.pos hi :=
    splitting_of_parent (s := { promoted with ptr := c }) (Nat.lt_of_succ_lt inner) childAt.above.mem
      parentNode child stored rfl (fun _ kind => kind) (fun _ kind => kind)
      (by simp [Node.slots, Sep.pos])
  have change := Reshape.nonleaf splitting inner fits half past more
  obtain ⟨right, left⟩ := ChildAt.split shape childAt.above childAt.covers child rfl splitting
  have same := splitting.leaf_nodes shape inner
  by_cases beyond : promoted.key < key
  · refine ⟨_, _, _, rfl, change, right beyond, .inr rfl, same, ?_⟩
    intro holds level' next' keys' rightmost' stored'
    have used := ((sizes holds).fits _ _ stored).1
    simp only [vnodeUsedSpace_append, vnodeUsedSpace_cons] at used
    rw [splitting.right_node shape] at stored'
    cases stored'
    exact not_full_of_half (by omega)
  · refine ⟨_, _, _, rfl, change, left (not_lt.mp beyond), .inl rfl, same, ?_⟩
    intro _ level' next' keys' rightmost' stored'
    rw [splitting.left_node shape] at stored'
    cases stored'
    exact not_full_of_half half

/-- Where the descent is: at the root, or at a child of a node that is not
full, provided that the tree was `roomy` at the beginning. -/
inductive NodeAt (cfg : Config κ) (roomy : Prop) (t : Tree κ) (key : κ) :
    ℕ → Option (ℕ × ℕ) → Slot (Pos κ) → Prop
  | root : NodeAt cfg roomy t key 0 none ⟨t.rootid, ⊤⟩
  | child {d nk : ℕ} {s sp : Slot (Pos κ)} (childAt : ChildAt t d key sp nk s)
      (room : roomy → NotFull cfg t sp.id) : NodeAt cfg roomy t key (d + 1) (some (sp.id, nk)) s

theorem NodeAt.covers (nodeAt : NodeAt cfg roomy t key d parent s) :
    Covers (t.level d) ⟨key, ⊤⟩ s := by
  cases nodeAt with
  | root => exact covers_root t _
  | child childAt => exact childAt.covers

/-- The node above a node that is to be split; the root gets a new one. -/
theorem NodeAt.splitParent_spec (shape : Shape t h) (le : d ≤ h)
    (nodeAt : NodeAt cfg roomy t key d parent s)
    (keyed : ∀ level next rightmost, t.nodes s.id ≠ some (.nonleaf level next [] rightmost)) :
    ∃ t₀ h₀ d₀ sp nk, splitParent t parent s.id (h - d) = some (t₀, sp.id, nk) ∧
      Reshapes cfg t h t₀ h₀ ∧ d₀ + 1 ≤ h₀ ∧ h₀ - (d₀ + 1) = h - d ∧
      ChildAt t₀ d₀ key sp nk s ∧ (roomy → NotFull cfg t₀ sp.id) ∧
      SameLeaves t h t₀ h₀ ∧ t₀.nodes s.id = t.nodes s.id := by
  cases nodeAt with
  | root =>
    have level := shape.splitRoot_level (Nat.zero_le h)
    have rootNode : (splitRoot t h).nodes t.logical_id_counter =
        some (.nonleaf (h + 1) 0 [] t.rootid) := by
      rw [splitRoot_nodes, if_pos rfl]
    refine ⟨splitRoot t h, h + 1, 0, ⟨t.logical_id_counter, ⊤⟩, 0, ?_, .step (.root keyed) .refl,
      by omega, by omega, ⟨?_, ?_, ?_⟩, ?_, ⟨?_, ?_⟩, ?_⟩
    · simp [splitParent]
    · exact covers_root (splitRoot t h) _
    · exact ⟨_, _, _, _, rootNode, le_rfl, rfl⟩
    · rw [level]
      exact covers_root t _
    · intro _ level' next' keys' rightmost' stored'
      have same := some.inj (rootNode.symm.trans stored')
      cases same
      exact not_full_of_half (by simp)
    · exact shape.splitRoot_level le_rfl
    · exact fun x mem => shape.splitRoot_other le_rfl mem
    · exact shape.splitRoot_other (Nat.zero_le h) (s := ⟨t.rootid, ⊤⟩) (by simp)
  | @child d nk s sp childAt room =>
    have notRoot : s.id ≠ t.rootid := by
      intro same
      have rootMem : (⟨t.rootid, ⊤⟩ : Slot (Pos κ)) ∈ t.level 0 := by simp
      have depths := shape.depth_unique le (Nat.zero_le h) childAt.covers.mem rootMem same
      omega
    refine ⟨t, h, d, sp, nk, ?_, .refl, le, rfl, childAt, room, ⟨rfl, fun _ _ => rfl⟩, rfl⟩
    simp [splitParent, notRoot]

/-! ## One pass -/

/-- How one pass of the descent can end, from a tree where the key's leaf has
these entries. If the tree is `roomy`, a pass does not get stuck. -/
inductive DescentOutcome (cfg : Config κ) (roomy : Prop) (obj : Obj κ) (t : Tree κ) (h : ℕ)
    (entries : List (Entry κ)) : Option (Descent κ) → Prop
  | stuck (never : roomy → ¬ cfg.Unwrapped (cfg.keylen obj.key) obj.data.length) :
      DescentOutcome cfg roomy obj t h entries none
  | leaf {t' : Tree κ} {h' : ℕ} {s' : Slot (Pos κ)} {entries' : List (Entry κ)} {is_update : Bool}
      (changes : Reshapes cfg t h t' h') (leaf : LeafOf t' h' obj.key s' entries')
      (latest : latestIn entries' obj.key = latestIn entries obj.key)
      (update : is_update = isUpdate t obj entries (btreeLeafFindKey entries obj.key .any).1
        (btreeLeafFindKey entries obj.key .any).2)
      (room : btreeLeafIsFullIndex cfg entries' obj.key obj.data.length is_update
          (btreeLeafFindKey entries' obj.key .any).1 = false ∨
        btreeLeafIsFullIndex cfg entries obj.key obj.data.length is_update
            (btreeLeafFindKey entries obj.key .any).1 = true ∧
          needsSplit cfg obj entries' = false ∧
          (needsSplit cfg obj (halfFor cfg entries obj.key) = false →
            entries' = halfFor cfg entries obj.key)) :
      DescentOutcome cfg roomy obj t h entries (some (.leaf t' s'.id
        (btreeLeafFindKey entries' obj.key .any).1 (btreeLeafFindKey entries' obj.key .any).2
        is_update))
  | restart {t' : Tree κ} {h' : ℕ} {s' : Slot (Pos κ)} {entries' : List (Entry κ)}
      (changes : Reshapes cfg t h t' h') (leaf : LeafOf t' h' obj.key s' entries')
      (latest : latestIn entries' obj.key = latestIn entries obj.key)
      (full : btreeLeafIsFullIndex cfg entries obj.key obj.data.length
        (isUpdate t obj entries (btreeLeafFindKey entries obj.key .any).1
          (btreeLeafFindKey entries obj.key .any).2)
        (btreeLeafFindKey entries obj.key .any).1 = true)
      (progress : roomy → entries'.length < entries.length ∧
        needsSplit cfg obj (halfFor cfg entries obj.key) = true) :
      DescentOutcome cfg roomy obj t h entries (some (.restart t'))

variable {t₀ : Tree κ} {h₀ : ℕ} {leafSlot : Slot (Pos κ)}

omit [LinearOrder κ] in
theorem isUpdate_congr (same : t'.snapshots = t.snapshots) (obj : Obj κ)
    (entries : List (Entry κ)) (index : ℕ) (found : Bool) :
    isUpdate t' obj entries index found = isUpdate t obj entries index found := by
  simp [isUpdate, isLeafKeyActive, same]

/-- A pass that begins with changes of the structure. -/
theorem DescentOutcome.after (changes : Reshapes cfg t h t₀ h₀) {result : Option (Descent κ)}
    (outcome : DescentOutcome cfg roomy obj t₀ h₀ entries result) :
    DescentOutcome cfg roomy obj t h entries result := by
  cases outcome with
  | stuck never => exact .stuck never
  | leaf rest leaf latest update room =>
    refine .leaf (changes.trans rest) leaf latest ?_ room
    rw [update, isUpdate_congr changes.snapshots]
  | restart rest leaf latest full progress =>
    refine .restart (changes.trans rest) leaf latest ?_ progress
    rw [← full, isUpdate_congr changes.snapshots]

theorem LeafOf.unique {s' : Slot (Pos κ)} {entries' : List (Entry κ)}
    (leaf : LeafOf t h key s entries) (leaf' : LeafOf t h key s' entries') :
    s = s' ∧ entries = entries' := by
  obtain ⟨covers, next, stored⟩ := leaf
  obtain ⟨covers', next', stored'⟩ := leaf'
  obtain rfl := covers.unique covers'
  cases stored.symm.trans stored'
  exact ⟨rfl, rfl⟩

theorem NodeAt.descend_leaf (shape : Shape t h) (positive : t.Positive)
    (sizes : roomy → t.Roomy cfg) (nodeAt : NodeAt cfg roomy t obj.key h parent s)
    (leaf : LeafOf t h obj.key s entries) (fuel : ℕ) :
    DescentOutcome cfg roomy obj t h entries (descend cfg obj (fuel + 1) t parent s.id) := by
  have ⟨_, next, stored⟩ := leaf
  rw [descend]
  simp only [stored]
  split_ifs with full
  case neg => exact .leaf .refl leaf rfl rfl (.inl (Bool.eq_false_iff.mpr full))
  obtain ⟨t₀, h₀, d₀, sp, nk, above, changes, le, height, at₀, room, same, node⟩ :=
    nodeAt.splitParent_spec shape le_rfl (by simp [stored])
  obtain rfl : h₀ = d₀ + 1 := by omega
  rw [Nat.sub_self] at above
  simp only [above, bind_eq_bind, bind_some]
  apply DescentOutcome.after changes
  have shape₀ := changes.shape shape
  have leaf₀ := leaf.congr same
  have outcome := at₀.msplitLeaf_outcome cfg shape₀ (changes.seqnos positive) leaf₀
    le_rfl
  generalize msplitLeaf cfg obj entries.length t₀ sp.id nk s.id = result at outcome
  cases outcome with
  | stuck few =>
    refine .stuck fun holds short => ?_
    have less := few (changes.roomy (sizes holds)) short
    have two := two_of_full ((sizes holds).fits _ _ stored) short full
    omega
  | @split t' nk' s' entries' rest at' leaf' latest halved =>
    simp only [bind_some]
    have ⟨_, next', stored'⟩ := leaf'
    rcases searchNode_spec cfg (rest.shape shape₀) (Nat.lt_succ_self d₀) at'.above with
      ⟨failed, crowded⟩ | ⟨nk'', s'', found, at''⟩
    · rw [failed]
      exact .stuck fun holds => absurd (rest.roomy (changes.roomy (sizes holds))) crowded
    · obtain rfl := at'.covers.unique at''.covers
      simp only [found, bind_some, stored', if_true]
      refine .leaf rest leaf' latest ?_ (.inr ⟨full, halved.notFull, halved.once⟩)
      exact (isUpdate_congr changes.snapshots ..).symm
  | full rest leaf' latest upto progress =>
    refine .restart rest leaf' latest ?_ fun holds => ?_
    · rw [isUpdate_congr changes.snapshots]
      exact full
    · exact progress.resolve_left fun full' => full' (room holds)

theorem NodeAt.descend_outcome (shape : Shape t h) (positive : t.Positive)
    (sizes : roomy → t.Roomy cfg) (le : d ≤ h) (nodeAt : NodeAt cfg roomy t obj.key d parent s)
    (leaf : LeafOf t h obj.key leafSlot entries) {fuel : ℕ} (enough : h - d < fuel) :
    DescentOutcome cfg roomy obj t h entries (descend cfg obj fuel t parent s.id) := by
  induction fuel generalizing t h d s parent with
  | zero => cases enough
  | succ fuel ih =>
    rcases le.eq_or_lt with rfl | lt
    · obtain ⟨next, here, stored⟩ := shape.leaf nodeAt.covers.mem
      have leafHere : LeafOf t d obj.key s here := ⟨nodeAt.covers, next, stored⟩
      obtain ⟨rfl, rfl⟩ := leaf.unique leafHere
      exact nodeAt.descend_leaf shape positive sizes leaf fuel
    obtain ⟨next, keys, rightmost, stored⟩ := shape.nonleaf lt nodeAt.covers.mem
    have sorted := (shape.keys_sorted lt nodeAt.covers.mem stored).1
    rw [descend]
    simp only [stored, bind_eq_bind]
    by_cases expected : keys ≠ [] ∨ (s.id == t.rootid) = true
    case neg =>
      obtain ⟨empty, notRoot⟩ := not_or.mp expected
      rw [ne_eq, not_not] at empty
      subst empty
      simp only [findKeyNonLeaf, if_true, if_neg notRoot, bind_none]
      exact .stuck fun holds =>
        absurd (beq_iff_eq.mpr ((sizes holds).keyed _ _ _ _ stored)) notRoot
    simp only [findKeyNonLeaf_eq sorted expected, bind_some]
    by_cases full : isNodeFullNonLeaf cfg keys = true
    case neg =>
      rw [if_neg full, ← slotAt_id keys rightmost s.hi]
      apply ih shape positive sizes lt _ leaf (by omega)
      refine .child ⟨nodeAt.covers, ⟨_, _, _, _, stored, cutIndex_le_length _ _, rfl⟩,
        shape.covers_child lt nodeAt.covers stored⟩ ?_
      intro _ level' next' keys' rightmost' stored'
      cases stored.symm.trans stored'
      exact Bool.eq_false_iff.mpr full
    rw [if_pos full]
    have keyed : ∀ level next rightmost,
        t.nodes s.id ≠ some (.nonleaf level next [] rightmost) := by
      intro level' next' rightmost' empty
      cases stored.symm.trans empty
      have notFull : isNodeFullNonLeaf cfg ([] : List (Sep κ)) = false :=
        not_full_of_half (by simp)
      cases notFull.symm.trans full
    obtain ⟨t₀, h₀, d₀, sp, nk, above, changes, le₀, height, at₀, room, same, node⟩ :=
      nodeAt.splitParent_spec shape le keyed
    simp only [above, bind_some]
    apply DescentOutcome.after changes
    have shape₀ := changes.shape shape
    have stored₀ := node.trans stored
    have inner : d₀ + 1 < h₀ := by omega
    have sizes₀ := fun holds => changes.roomy (sizes holds)
    rcases at₀.msplitNonLeaf_spec shape₀ (changes.seqnos positive) inner stored₀ full sizes₀
      room with ⟨failed, crowded⟩ | ⟨t₁, nk₁, s₁, split, change, at₁, half, same₁, room₁⟩
    · rw [failed]
      exact .stuck fun holds => absurd holds crowded
    simp only [split, bind_some]
    have shape₁ := change.shape shape₀
    have sizes₁ := fun holds => change.roomy (sizes₀ holds)
    have changes₁ : Reshapes cfg t₀ h₀ t₁ h₀ := .step change .refl
    apply DescentOutcome.after changes₁
    rcases searchNode_spec cfg shape₁ (Nat.lt_of_succ_lt inner) at₁.above with
      ⟨failed, crowded⟩ | ⟨nk₂, s₂, found, at₂⟩
    · rw [failed]
      exact .stuck fun holds => absurd (sizes₁ holds) crowded
    obtain rfl := at₁.covers.unique at₂.covers
    have here : (if s₁.id = s.id then s.id else t₀.logical_id_counter) = s₁.id := by
      split_ifs with left
      · exact left.symm
      · exact (half.resolve_left left).symm
    simp only [found, bind_some, here]
    rcases searchNode_spec cfg shape₁ inner at₁.covers with
      ⟨failed, crowded⟩ | ⟨nk₃, s₃, found₃, at₃⟩
    · rw [failed]
      exact .stuck fun holds => absurd (sizes₁ holds) crowded
    simp only [found₃, bind_some]
    exact ih shape₁ (changes₁.seqnos (changes.seqnos positive)) sizes₁ inner
      (.child at₃ room₁) ((leaf.congr same).congr same₁) (by omega)

end Zetascale.Btree
