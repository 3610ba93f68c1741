import Mathlib

/-!
# Holds and spans that overlap in time

A history, newest event first, records when keys are taken and given back and
when spans begin and end. A span overlaps a key when there was a moment at which
the span was open and the key was held. `Ledger` is what a bookkeeper has to
remember of a history: which keys are held, which spans are open and, for each
key, the open spans that overlap it. `ledger_cons` says that the ledger can be
kept event by event.
-/

namespace Zetascale.Overlap

open Function List

universe u v

variable {κ : Type u} {ι : Type v} [DecidableEq κ] [DecidableEq ι]

/-- What happens to keys and spans. -/
inductive Event (κ : Type u) (ι : Type v) where
  | granted (key : κ)
  | released (key : κ)
  | started (span : ι)
  | completed (span : ι)

/-- Whether the key is held at the end of the history. -/
def held : List (Event κ ι) → κ → Bool
  | [], _ => false
  | .granted taken :: earlier, key => decide (taken = key) || held earlier key
  | .released given :: earlier, key => !decide (given = key) && held earlier key
  | .started _ :: earlier, key => held earlier key
  | .completed _ :: earlier, key => held earlier key

/-- The spans that have begun and not ended, oldest first. -/
def unfinished : List (Event κ ι) → List ι
  | [] => []
  | .granted _ :: earlier => unfinished earlier
  | .released _ :: earlier => unfinished earlier
  | .started span :: earlier => unfinished earlier ++ [span]
  | .completed span :: earlier => (unfinished earlier).erase span

/-- Whether there was a moment at which the span was open and the key held. -/
def overlapped : List (Event κ ι) → ι → κ → Bool
  | [], _, _ => false
  | event :: earlier, span, key =>
    decide (span ∈ unfinished (event :: earlier)) && held (event :: earlier) key ||
      overlapped earlier span key

/-- The open spans that overlap the key. -/
def overlapping (history : List (Event κ ι)) (key : κ) : List ι :=
  (unfinished history).filter fun span => overlapped history span key

/-- Which keys are held, which spans are open, and which of them overlap a key. -/
@[ext]
structure Ledger (κ : Type u) (ι : Type v) where
  held : κ → Bool
  spans : List ι
  pending : κ → List ι

open Ledger

/-- The ledger of a history. -/
def ledger (history : List (Event κ ι)) : Ledger κ ι where
  held := held history
  spans := unfinished history
  pending := overlapping history

namespace Ledger

/-- A key is taken: every open span overlaps it from now on. -/
def grant (book : Ledger κ ι) (key : κ) : Ledger κ ι where
  held := update book.held key true
  spans := book.spans
  pending := update book.pending key book.spans

/-- A key is given back. -/
def release (book : Ledger κ ι) (key : κ) : Ledger κ ι :=
  { book with held := update book.held key false }

/-- A span begins: it overlaps the keys that are held. -/
def start (book : Ledger κ ι) (span : ι) : Ledger κ ι where
  held := book.held
  spans := book.spans ++ [span]
  pending key := if book.held key then book.pending key ++ [span] else book.pending key

/-- A span is no longer counted among those that overlap the key. -/
def settle (book : Ledger κ ι) (span : ι) (key : κ) : Ledger κ ι :=
  { book with pending := update book.pending key ((book.pending key).erase span) }

/-- A span ends. -/
def complete (book : Ledger κ ι) (span : ι) : Ledger κ ι where
  held := book.held
  spans := book.spans.erase span
  pending key := (book.pending key).erase span

/-- The ledger after one event. -/
def apply (book : Ledger κ ι) : Event κ ι → Ledger κ ι
  | .granted key => book.grant key
  | .released key => book.release key
  | .started span => book.start span
  | .completed span => book.complete span

/-- Settling a span key by key leaves the other keys and all holds alone. -/
theorem foldl_settle (book : Ledger κ ι) (span : ι) (keys : List κ)
    (nodup : ∀ key, (book.pending key).Nodup) :
    keys.foldl (fun current key => current.settle span key) book = ⟨book.held, book.spans,
      fun key => if key ∈ keys then (book.pending key).erase span else book.pending key⟩ := by
  induction keys generalizing book with
  | nil => simp
  | cons first rest ih =>
    have nodup' : ∀ key, ((book.settle span first).pending key).Nodup := by
      intro key
      by_cases same : key = first
      · simpa [settle, same] using (nodup first).erase span
      · simpa [settle, same] using nodup key
    rw [foldl_cons, ih _ nodup']
    refine Ledger.ext rfl rfl (funext fun key => ?_)
    by_cases same : key = first
    · subst same
      have gone : span ∉ (book.pending key).erase span := (nodup key).not_mem_erase
      simp [settle, erase_of_not_mem gone]
    · simp [settle, same]

end Ledger

variable {history : List (Event κ ι)} {span : ι} {key : κ}

theorem overlapped_iff_moment : overlapped history span key ↔
    ∃ moment, moment <:+ history ∧ span ∈ unfinished moment ∧ held moment key := by
  induction history with
  | nil =>
    constructor
    · exact nofun
    · rintro ⟨moment, within, _, holding⟩
      rw [suffix_nil.mp within] at holding
      cases holding
  | cons event earlier ih =>
    rw [overlapped, Bool.or_eq_true, Bool.and_eq_true, decide_eq_true_iff, ih]
    constructor
    · rintro (now | ⟨moment, within, before⟩)
      · exact ⟨event :: earlier, suffix_refl _, now⟩
      · exact ⟨moment, within.trans (suffix_cons event earlier), before⟩
    · rintro ⟨moment, within, before⟩
      rcases suffix_cons_iff.mp within with same | within
      · exact .inl (same ▸ before)
      · exact .inr ⟨moment, within, before⟩

/-- While the key is held, it overlaps every open span. -/
theorem overlapped_of_held (isOpen : span ∈ unfinished history) (holding : held history key) :
    overlapped history span key :=
  overlapped_iff_moment.mpr ⟨history, suffix_refl _, isOpen, holding⟩

theorem pending_of_held (holding : held history key) :
    overlapping history key = unfinished history :=
  filter_eq_self.mpr fun _ isOpen => overlapped_of_held isOpen holding

theorem mem_overlapping : span ∈ overlapping history key ↔
    span ∈ unfinished history ∧ overlapped history span key := by
  rw [overlapping, mem_filter]

variable {event : Event κ ι}

/-- An event that neither begins a span nor takes the key adds no overlap. -/
theorem overlapped_cons_of_quiet
    (spansBefore : span ∈ unfinished (event :: history) → span ∈ unfinished history)
    (heldBefore : held (event :: history) key → held history key) :
    overlapped (event :: history) span key = overlapped history span key := by
  rw [overlapped, Bool.or_eq_right_iff_imp]
  intro now
  rw [Bool.and_eq_true, decide_eq_true_iff] at now
  exact overlapped_of_held (spansBefore now.1) (heldBefore now.2)

theorem overlapping_granted : overlapping (.granted key :: history) key = unfinished history := by
  have holding : held (.granted key :: history) key := by simp [held]
  exact pending_of_held holding

theorem overlapping_granted_of_ne {other : κ} (ne : key ≠ other) :
    overlapping (.granted key :: history) other = overlapping history other :=
  filter_congr fun _ _ => overlapped_cons_of_quiet id (by simp [held, ne])

/-- A span that never began before overlaps exactly the keys held when it begins. -/
theorem overlapping_started (unknown : overlapped history span key = false) :
    overlapping (.started span :: history) key =
      if held history key then overlapping history key ++ [span] else overlapping history key := by
  have older : (unfinished history).filter (fun i => overlapped (.started span :: history) i key) =
      overlapping history key := by
    refine filter_congr fun i isOpen => overlapped_cons_of_quiet (fun _ => isOpen) id
  have newest : overlapped (.started span :: history) span key = held history key := by
    simp [overlapped, unfinished, held, unknown]
  rw [overlapping, unfinished, filter_append, older]
  cases holding : held history key <;> simp [newest, holding]

theorem overlapping_completed (distinct : (unfinished history).Nodup) :
    overlapping (.completed span :: history) key = (overlapping history key).erase span := by
  have same : ∀ i ∈ (unfinished history).erase span,
      overlapped (.completed span :: history) i key = overlapped history i key := by
    intro i isOpen
    exact overlapped_cons_of_quiet mem_of_mem_erase id
  rw [overlapping, unfinished, filter_congr same, overlapping, distinct.erase_eq_filter,
    (distinct.filter _).erase_eq_filter, filter_filter, filter_filter]
  simp [Bool.and_comm]

/-- The span does not occur in the history. -/
structure Unseen (history : List (Event κ ι)) (span : ι) : Prop where
  absent : span ∉ unfinished history
  apart : ∀ key, overlapped history span key = false

theorem Unseen.cons (unseen : Unseen history span)
    (other : event ≠ .started span) : Unseen (event :: history) span := by
  have absent : span ∉ unfinished (event :: history) := by
    cases event with
    | granted key => exact unseen.absent
    | released key => exact unseen.absent
    | started began =>
      have ne : span ≠ began := fun same => other (same ▸ rfl)
      simp [unfinished, unseen.absent, ne]
    | completed ended => exact fun isOpen => unseen.absent (mem_of_mem_erase isOpen)
  exact ⟨absent, fun key => by simp [overlapped, absent, unseen.apart key]⟩

/-- The event names a span that has not been seen before, where it begins one. -/
def Fresh (history : List (Event κ ι)) : Event κ ι → Prop
  | .started span => Unseen history span
  | _ => True

theorem unfinished_cons_nodup (distinct : (unfinished history).Nodup)
    (fresh : Fresh history event) : (unfinished (event :: history)).Nodup := by
  cases event with
  | granted key => exact distinct
  | released key => exact distinct
  | started span =>
    exact distinct.append (nodup_singleton span) (disjoint_singleton.mpr fresh.absent)
  | completed span => exact distinct.erase span

/-- The ledger of a history can be kept event by event. -/
theorem ledger_cons (distinct : (unfinished history).Nodup) (fresh : Fresh history event) :
    ledger (event :: history) = (ledger history).apply event := by
  cases event with
  | granted key =>
    refine Ledger.ext (funext fun other => ?_) rfl (funext fun other => ?_)
    · by_cases same : other = key
      · simp [ledger, held, apply, grant, same]
      · simp [ledger, held, apply, grant, same, Ne.symm same]
    · by_cases same : other = key
      · subst same
        simp [ledger, apply, grant, overlapping_granted]
      · simp [ledger, apply, grant, update_of_ne same, overlapping_granted_of_ne (Ne.symm same)]
  | released key =>
    refine Ledger.ext (funext fun other => ?_) rfl (funext fun other =>
      filter_congr fun _ _ => overlapped_cons_of_quiet id (by simp [held]))
    by_cases same : other = key
    · simp [ledger, held, apply, release, same]
    · simp [ledger, held, apply, release, same, Ne.symm same]
  | started span =>
    exact Ledger.ext rfl rfl (funext fun key => overlapping_started (fresh.apart key))
  | completed span =>
    exact Ledger.ext rfl rfl (funext fun key => overlapping_completed distinct)

end Zetascale.Overlap
