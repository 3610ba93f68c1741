import Mathlib

/-!
# Write-back caches

A cache in front of a store that remembers what was written to it. The value of a
key is the cached one, and without one the last that was written. Flushing a key
does not change any value, and neither does evicting it, provided that a line
which is not dirty holds what was last written (`Cache.Clean`).
-/

namespace Zetascale.WriteBack

open Function

variable {Key Data : Type*} [DecidableEq Key]

structure Line (Data : Type*) where
  data : Data
  dirty : Bool

structure Cache (Key Data : Type*) where
  line : Key → Option (Line Data)
  /-- What was written to the store, the newest first. -/
  written : List (Key × Data)

/-- The last data written for the key. -/
def lastWritten (log : List (Key × Data)) (key : Key) : Option Data :=
  (log.find? fun entry => entry.1 = key).map Prod.snd

@[simp] theorem lastWritten_cons_self (log : List (Key × Data)) (key : Key) (data : Data) :
    lastWritten ((key, data) :: log) key = some data := by
  simp [lastWritten]

theorem lastWritten_cons_of_ne (log : List (Key × Data)) {key other : Key} (ne : other ≠ key)
    (data : Data) : lastWritten ((key, data) :: log) other = lastWritten log other := by
  simp [lastWritten, ne.symm]

namespace Cache

variable (cache : Cache Key Data) (key : Key)

def value : Option Data :=
  match cache.line key with
  | some line => some line.data
  | none => lastWritten cache.written key

/-- Write a dirty line to the store and keep it. -/
def flush : Cache Key Data :=
  match cache.line key with
  | some ⟨data, true⟩ =>
    { line := update cache.line key (some ⟨data, false⟩)
      written := (key, data) :: cache.written }
  | _ => cache

/-- Forget a line. -/
def drop : Cache Key Data :=
  { cache with line := update cache.line key none }

def evict : Cache Key Data :=
  (cache.flush key).drop key

/-- Put new data into the cache. -/
def store (data : Data) : Cache Key Data :=
  { cache with line := update cache.line key (some ⟨data, true⟩) }

/-- A line that is not dirty holds what was last written. -/
def Clean : Prop :=
  ∀ key line, cache.line key = some line → line.dirty = false →
    lastWritten cache.written key = some line.data

variable {cache key}

theorem flush_of_dirty {data : Data} (dirty : cache.line key = some ⟨data, true⟩) :
    cache.flush key =
      { line := update cache.line key (some ⟨data, false⟩)
        written := (key, data) :: cache.written } := by
  simp [flush, dirty]

theorem flush_of_clean {data : Data} (clean : cache.line key = some ⟨data, false⟩) :
    cache.flush key = cache := by
  simp [flush, clean]

theorem flush_of_none (absent : cache.line key = none) : cache.flush key = cache := by
  simp [flush, absent]

/-- A flush writes a dirty line or does nothing. -/
theorem flush_cases (cache : Cache Key Data) (key : Key) : cache.flush key = cache ∨
    ∃ data, cache.line key = some ⟨data, true⟩ ∧
      cache.flush key =
        { line := update cache.line key (some ⟨data, false⟩)
          written := (key, data) :: cache.written } := by
  rcases held : cache.line key with _ | ⟨data, _ | _⟩
  · exact .inl (flush_of_none held)
  · exact .inl (flush_of_clean held)
  · exact .inr ⟨data, rfl, flush_of_dirty held⟩

theorem value_flush (other : Key) : (cache.flush key).value other = cache.value other := by
  rcases flush_cases cache key with same | ⟨data, dirty, flushed⟩
  · rw [same]
  · rw [flushed]
    by_cases here : other = key
    · subst here
      simp [value, dirty]
    · simp [value, here, lastWritten_cons_of_ne]

theorem Clean.flush (clean : cache.Clean) : (cache.flush key).Clean := by
  rcases flush_cases cache key with same | ⟨data, dirty, flushed⟩
  · rw [same]
    exact clean
  · rw [flushed]
    intro other line held notDirty
    dsimp only at held ⊢
    by_cases here : other = key
    · subst here
      rw [update_self, Option.some.injEq] at held
      rw [← held, lastWritten_cons_self]
    · rw [update_of_ne here] at held
      rw [lastWritten_cons_of_ne _ here]
      exact clean other line held notDirty

theorem value_drop_of_ne {other : Key} (ne : other ≠ key) :
    (cache.drop key).value other = cache.value other := by
  simp [value, drop, ne]

theorem Clean.drop (clean : cache.Clean) : (cache.drop key).Clean := by
  intro other line held notDirty
  dsimp only [Cache.drop] at held ⊢
  by_cases here : other = key
  · subst here
    rw [update_self] at held
    cases held
  · rw [update_of_ne here] at held
    exact clean other line held notDirty

/-- After a flush no line of the key is dirty. -/
theorem flush_line_clean {line : Line Data} (held : (cache.flush key).line key = some line) :
    line.dirty = false := by
  rcases before : cache.line key with _ | ⟨data, _ | _⟩
  · rw [flush_of_none before, before] at held
    cases held
  · rw [flush_of_clean before, before, Option.some.injEq] at held
    rw [← held]
  · rw [flush_of_dirty before] at held
    dsimp only at held
    rw [update_self, Option.some.injEq] at held
    rw [← held]

/-- Dropping a line that is not dirty changes no value. -/
theorem Clean.value_drop (clean : cache.Clean)
    (notDirty : ∀ line, cache.line key = some line → line.dirty = false) (other : Key) :
    (cache.drop key).value other = cache.value other := by
  by_cases here : other = key
  · subst here
    cases held : cache.line other with
    | none => simp [value, Cache.drop, held]
    | some line =>
      have last := clean other line held (notDirty line held)
      simp [value, Cache.drop, held, last]
  · exact value_drop_of_ne here

theorem Clean.value_evict (clean : cache.Clean) (other : Key) :
    (cache.evict key).value other = cache.value other := by
  rw [evict, clean.flush.value_drop (fun _ held => flush_line_clean held), value_flush]

theorem Clean.evict (clean : cache.Clean) : (cache.evict key).Clean :=
  clean.flush.drop

theorem Clean.evict_all (clean : cache.Clean) (keys : List Key) :
    (keys.foldl Cache.evict cache).Clean ∧
      ∀ other, (keys.foldl Cache.evict cache).value other = cache.value other := by
  induction keys generalizing cache with
  | nil => exact ⟨clean, fun _ => rfl⟩
  | cons key rest ih =>
    have evicted : (cache.evict key).Clean := clean.evict
    obtain ⟨still, values⟩ := ih evicted
    exact ⟨still, fun other => (values other).trans (clean.value_evict other)⟩

theorem value_store (data : Data) :
    (cache.store key data).value = update cache.value key (some data) := by
  funext other
  by_cases here : other = key
  · subst here
    simp [value, store]
  · simp [value, store, here]

theorem Clean.store (clean : cache.Clean) (data : Data) : (cache.store key data).Clean := by
  intro other line held notDirty
  dsimp only [Cache.store] at held ⊢
  by_cases here : other = key
  · subst here
    rw [update_self, Option.some.injEq] at held
    rw [← held] at notDirty
    cases notDirty
  · rw [update_of_ne here] at held
    exact clean other line held notDirty

end Cache

/-- What is known about the value of a key. -/
inductive Expected (Data : Type*) where
  | value (data : Option Data)
  | anything

def Expected.Met {Data : Type*} : Expected Data → Option Data → Prop
  | .value data, actual => actual = data
  | .anything, _ => True

end Zetascale.WriteBack
