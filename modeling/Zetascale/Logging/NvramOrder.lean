import Zetascale.Lib.Machine

/-!
# A stream and its NVRAM buffer

Writers of a logging container with several streams, from `lc_write`, `write_records` and
`streamwrite` in `lc.c`. On the fast path a writer reserves its place in the stream buffer under
`buflock`, lets it go, and only then appends the same bytes to NVRAM. It holds the container's lock for
reading all the while, and the slow path holds it for writing. The `_one_spc` variants have the same two
steps, but put off the sync.
-/

namespace Zetascale.Logging

open List Option

/-- `bytes_per_so_buffer`, and the header of the streaming object with a sequence number. -/
structure StreamParams where
  bytesPerSoBuffer : ℕ
  so : ℕ → List UInt8

/-- `stream_t`. The buffer is the one up to `bufnexti`; a fast writer has its offset and length there
until it has appended them to NVRAM. -/
structure Stream (T : Type) where
  seqnext : ℕ
  buffer : List UInt8 := []
  nvram : List UInt8 := []
  writers : List (T × ℕ × ℕ) := []

/-- What can fail in `streamwrite`: `zs_write_object_lc`, `sostatus`, `streamreclaim`, and
`nvr_write_buffer_partial` before or after it copies. -/
inductive StreamFault
  | flash
  | sostatus
  | reclaim
  | nvram
  | sync
  deriving DecidableEq

variable {T : Type} {p : StreamParams} {s next : Stream T} {n stop : ℕ} {ws : List (T × ℕ × ℕ)}

/-- The end of `streamwrite`: the record goes to both buffers, in NVRAM behind a header if it is the
first. -/
def Stream.put (p : StreamParams) (s : Stream T) (record : List UInt8) (fault : Option StreamFault) :
    Stream T :=
  let nvram := s.nvram ++ ((if s.buffer = [] then p.so s.seqnext else []) ++ record)
  if fault = some .nvram then s
  else if fault = some .sync then { s with nvram }
  else { s with buffer := s.buffer ++ record, nvram }

/-- `streamwrite` -/
def streamwrite (p : StreamParams) (s : Stream T) (record : List UInt8)
    (fault : Option StreamFault) : Stream T :=
  if p.bytesPerSoBuffer < record.length + s.buffer.length then
    if fault = some .flash then s
    -- `nvr_reset_buffer` comes before `sostatus`
    else if fault = some .sostatus then { s with nvram := [] }
    else
      let s := { s with nvram := [], buffer := [], seqnext := s.seqnext + 1 }
      if fault = some .reclaim then s else s.put p record fault
  else s.put p record fault

/-- What the writers do. A call of `lc_mput` reserves the place of a run of records at once. -/
inductive Write (T : Type)
  | reserve (t : T) (records : List (List UInt8))
  | append (t : T) (accepted : Bool)
  | slow (record : List UInt8) (fault : Option StreamFault)

/-- The reservations lie one behind the other between two offsets. -/
def Tiles : ℕ → List (T × ℕ × ℕ) → ℕ → Prop
  | n, [], stop => n = stop
  | n, (_, off, len) :: rest, stop => off = n ∧ Tiles (n + len) rest stop

theorem Tiles.le (tiles : Tiles n ws stop) : n ≤ stop := by
  induction ws generalizing n with
  | nil => exact Nat.le_of_eq tiles
  | cons w rest ih => exact Nat.le_trans (Nat.le_add_right n w.2.2) (ih tiles.2)

theorem Tiles.concat (tiles : Tiles n ws stop) (t : T) (len : ℕ) :
    Tiles n (ws ++ [(t, stop, len)]) (stop + len) := by
  induction ws generalizing n with
  | nil =>
    cases tiles
    exact ⟨rfl, rfl⟩
  | cons w rest ih => exact ⟨tiles.1, ih tiles.2⟩

/-- NVRAM has the first `n` bytes of the buffer, and the writers have the rest. -/
structure Appended (p : StreamParams) (s : Stream T) (n : ℕ) : Prop where
  nvram : s.nvram = (if s.buffer = [] then [] else p.so s.seqnext) ++ s.buffer.take n
  tiles : Tiles n s.writers s.buffer.length

theorem Appended.put (appended : Appended p s n) (idle : s.writers = []) {record : List UInt8}
    (nonempty : record ≠ []) {fault : Option StreamFault} (synced : fault ≠ some .sync) :
    ∃ n, Appended p (s.put p record fault) n := by
  have ⟨nvram, tiles⟩ := appended
  simp only [Stream.put, if_neg synced]
  split
  · exact ⟨n, appended⟩
  · rw [idle] at tiles
    obtain rfl : n = s.buffer.length := tiles
    refine ⟨(s.buffer ++ record).length, ?_, ?_⟩
    · rw [take_length] at nvram
      simp only [nvram, take_length, append_eq_nil_iff, nonempty, and_false, if_false]
      by_cases empty : s.buffer = [] <;> simp [empty]
    · rw [idle]
      exact rfl

variable [DecidableEq T]

def Stream.step (p : StreamParams) (s : Stream T) : Write T → Option (Stream T)
  | .reserve t records =>
    if (∀ w ∈ s.writers, w.1 ≠ t) ∧ s.buffer ≠ [] ∧
        records.flatten.length + s.buffer.length ≤ p.bytesPerSoBuffer then
      some { s with
        buffer := s.buffer ++ records.flatten
        writers := s.writers ++ [(t, s.buffer.length, records.flatten.length)] }
    else none
  | .append t accepted =>
    (s.writers.find? fun w => w.1 = t).map fun (_, off, len) =>
      { s with
        nvram := if accepted then s.nvram ++ (s.buffer.drop off).take len else s.nvram
        writers := s.writers.eraseP fun w => w.1 = t }
  | .slow record fault =>
    if s.writers = [] ∧ record ≠ [] then some (streamwrite p s record fault) else none

/-- Without writers NVRAM holds the header and then what the stream buffer holds. -/
def Stream.Mirrored (p : StreamParams) (s : Stream T) : Prop :=
  s.writers = [] → s.buffer ≠ [] → s.nvram = p.so s.seqnext ++ s.buffer

/-- NVRAM takes the bytes of the writer that reserved first, and the slow path does not fail between its
changes. -/
def InOrder (s : Stream T) : Write T → Prop
  | .reserve .. => True
  | .append t accepted => accepted = true ∧ s.writers.head?.map Prod.fst = some t
  | .slow _ fault => fault ≠ some .sostatus ∧ fault ≠ some .sync

theorem Appended.step (appended : Appended p s n) {w : Write T} (inOrder : InOrder s w)
    (taken : s.step p w = some next) : ∃ n, Appended p next n := by
  have ⟨nvram, tiles⟩ := appended
  cases w with
  | reserve t records =>
    obtain ⟨⟨_, nonempty, _⟩, ⟨⟩⟩ := ite_none_right_eq_some.mp taken
    refine ⟨n, ?_, ?_⟩
    · rw [nvram, if_neg nonempty, if_neg (by simp [nonempty]), take_append_of_le_length tiles.le]
    · rw [length_append]
      exact tiles.concat t _
  | append t accepted =>
    obtain ⟨rfl, first⟩ := inOrder
    obtain ⟨⟨_, off, len⟩, head, rfl⟩ := map_eq_some_iff.mp first
    obtain ⟨rest, writers⟩ := head?_eq_some_iff.mp head
    rw [writers] at tiles
    obtain ⟨rfl, onward⟩ := tiles
    simp only [Stream.step, writers, find?_cons, eraseP_cons, decide_true, map_some, if_true,
      cond_true, some.injEq] at taken
    subst taken
    refine ⟨off + len, ?_, onward⟩
    rw [nvram, append_assoc, take_add]
  | slow record fault =>
    obtain ⟨⟨idle, nonempty⟩, ⟨⟩⟩ := ite_none_right_eq_some.mp taken
    unfold streamwrite
    split
    · split
      · exact ⟨n, appended⟩
      · rw [if_neg inOrder.1]
        have flushed : Appended p { s with nvram := [], buffer := [], seqnext := s.seqnext + 1 } 0 :=
          ⟨rfl, by rw [idle]; rfl⟩
        split
        · exact ⟨0, flushed⟩
        · exact flushed.put idle nonempty inOrder.2
    · exact appended.put idle nonempty inOrder.2

/-- If NVRAM takes the bytes in the order of the reservations, its order is that of the buffer. -/
theorem mirrored_of_inOrder {seqnext : ℕ} {writes : List (Write T)} {final : Stream T}
    (inOrder : Machine.Admitted (Stream.step p) InOrder { seqnext := seqnext } writes)
    (reached : Machine.run (Stream.step p) { seqnext := seqnext } writes = some final) :
    final.Mirrored p := by
  obtain ⟨n, nvram, tiles⟩ := @Machine.run_induction _ _ _ _ (fun s => ∃ n, Appended p s n)
    { seqnext := seqnext } _ _ (fun ⟨_, appended⟩ ok taken => appended.step ok taken) ⟨0, rfl, rfl⟩
    inOrder reached
  intro idle nonempty
  rw [idle] at tiles
  rw [nvram, if_neg nonempty, show n = final.buffer.length from tiles, take_length]

/-- A header of one byte, and room for eight. -/
def smallStream : StreamParams where
  bytesPerSoBuffer := 8
  so := fun seqno => [seqno.toUInt8]

/-- Two writers of the same stream, one after the other. -/
theorem mirrored_of_inOrder_two :
    ∃ final : Stream Bool, final.nvram = [5, 1, 2, 3, 4] ∧ final.Mirrored smallStream := by
  have inOrder : Machine.Admitted (Stream.step smallStream) InOrder { seqnext := 5 }
      [.slow [1] none, .reserve true [[2]], .append true true, .reserve false [[3], [4]],
        .append false true] := by
    simp [Machine.Admitted, InOrder, Stream.step, streamwrite, Stream.put, smallStream]
  exact ⟨_, rfl, mirrored_of_inOrder inOrder rfl⟩

/-- The second writer appends to NVRAM before the first: what was written last is not what is read
after a crash. -/
theorem later_write_first :
    ∃ final : Stream Bool, Machine.run (Stream.step smallStream) { seqnext := 5 }
        [.slow [1] none, .reserve true [[2]], .reserve false [[3]], .append false true,
          .append true true] = some final ∧
      final.writers = [] ∧ final.buffer = [1, 2, 3] ∧ final.nvram = [5, 1, 3, 2] ∧
      ¬ final.Mirrored smallStream := by
  refine ⟨_, rfl, rfl, rfl, rfl, fun mirrored => ?_⟩
  have same := mirrored rfl nofun
  cases same

end Zetascale.Logging
