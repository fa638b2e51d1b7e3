import HybridTM.Proofs.Logs
import Mathlib.Data.Finset.Card
import Mathlib.Logic.Function.Basic

/-!
# Write logs as maps

A write log answers whatever it is asked as a plain map from addresses to pending bits does
(`WriteLog.run_matches`): the same look-ups, the same entries in the order in which the
words were first written, and the same memory when it is written back. The map knows neither a
filter nor an index, so that neither the number of entries nor a shared filter slot can be seen from
outside.
-/

set_option autoImplicit false

namespace HybridTM

/-! ## The map -/

/-- For each word that was written the pending value and the bits that count. -/
structure PendingWrites where
  /-- The words written, in the order of the first writes. -/
  order : List Addr
  /-- The pending value and the bits that count. -/
  pending : Addr → Option (Word × Mask)

namespace PendingWrites

/-- Nothing is pending. -/
def empty : PendingWrites := ⟨[], fun _ => none⟩

/-- What is pending for a word after a further write to it: the bits of the write over those before,
and the union of the masks. -/
def overlay (old : Option (Word × Mask)) (v : Word) (mask : Mask) : Word × Mask :=
  let (value, bits) := old.getD (0, 0)
  (merge value v mask, bits ||| mask)

/-- The map after a further write. -/
def insert (M : PendingWrites) (a : Addr) (v : Word) (mask : Mask) : PendingWrites where
  order := if a ∈ M.order then M.order else M.order ++ [a]
  pending := Function.update M.pending a (some (overlay (M.pending a) v mask))

/-- What is pending for a word, as an entry of a log. -/
def find? (M : PendingWrites) (a : Addr) : Option WriteEntry :=
  (M.pending a).map fun (value, mask) => ⟨a, value, mask⟩

/-- The bits that are pending for a word. -/
def bits (M : PendingWrites) (a : Addr) : Mask := ((M.pending a).map (·.2)).getD 0

/-- Everything pending, in the order of the first writes. -/
def entries (M : PendingWrites) : List WriteEntry := M.order.filterMap M.find?

/-- The memory in which every word with something pending has the pending bits, and all else is as
before. -/
def writeBack (M : PendingWrites) (m : Memory) : Memory :=
  ⟨fun a =>
    match M.pending a with
    | some (value, mask) => merge (m.read a) value mask
    | none => m.read a⟩

end PendingWrites

/-! ## Calls -/

/-- What can be asked of buffered writes. -/
inductive WriteCall where
  /-- Buffer a write. -/
  | insert (a : Addr) (v : Word) (mask : Mask)
  /-- Look a word up. -/
  | find (a : Addr)
  /-- Drop everything. -/
  | clear
  /-- Write everything back to memory. -/
  | writeBack

/-- A way to buffer writes. -/
structure WriteBuffer (σ : Type) where
  /-- Nothing is buffered. -/
  empty : σ
  /-- Buffer a write. -/
  insert : σ → Addr → Word → Mask → σ
  /-- The buffered write for a word. -/
  find? : σ → Addr → Option WriteEntry
  /-- Everything buffered. -/
  entries : σ → List WriteEntry
  /-- The memory after everything buffered took effect. -/
  writeBack : σ → Memory → Memory

/-- A buffer over memory, with the answers it gave to look-ups. -/
structure WriteRun (σ : Type) where
  /-- The answers, oldest first. -/
  answers : List (Option WriteEntry)
  /-- The buffer. -/
  buffer : σ
  /-- The memory. -/
  memory : Memory

namespace WriteBuffer

variable {σ : Type}

/-- The state after a call. -/
def call (B : WriteBuffer σ) (s : WriteRun σ) : WriteCall → WriteRun σ
  | .insert a v mask => { s with buffer := B.insert s.buffer a v mask }
  | .find a => { s with answers := s.answers ++ [B.find? s.buffer a] }
  | .clear => { s with buffer := B.empty }
  | .writeBack => { s with memory := B.writeBack s.buffer s.memory }

/-- The state after calls, from an empty buffer. -/
def run (B : WriteBuffer σ) (m : Memory) (calls : List WriteCall) : WriteRun σ :=
  calls.foldl B.call ⟨[], B.empty, m⟩

end WriteBuffer

/-- The write log as a buffer. -/
def WriteLog.buffer : WriteBuffer WriteLog where
  empty := empty
  insert := insert
  find? := find?
  entries log := log.entries.toList
  writeBack := writeBack

/-- The map as a buffer. -/
def PendingWrites.buffer : WriteBuffer PendingWrites where
  empty := empty
  insert := insert
  find? := find?
  entries := entries
  writeBack := writeBack

/-- The words written since everything was last dropped, after a further call. -/
def WriteCall.writes (words : List Addr) : WriteCall → List Addr
  | .insert a _ _ => words ++ [a]
  | .clear => []
  | .find _ | .writeBack => words

/-- The words written since everything was last dropped, with repetitions. -/
def written (calls : List WriteCall) : List Addr := calls.foldl WriteCall.writes []

/-! ## The log stands for a map -/

/-- A write log and a map hold the same. -/
structure WriteLog.StandsFor (log : WriteLog) (M : PendingWrites) : Prop where
  /-- The words were first written in the same order. -/
  order : log.entries.toList.map (·.addr) = M.order
  /-- Every look-up gives the same. -/
  find? : ∀ a, log.find? a = M.find? a

/-- A word is listed in a log just when the log has an entry for it. -/
theorem WriteLog.mem_addr_iff {log : WriteLog} {a : Addr} :
    a ∈ log.entries.toList.map (·.addr) ↔ ∃ e, log.find? a = some e := by
  simp only [find?_eq_some_iff, List.mem_map, Array.mem_toList_iff, Array.mem_iff_getElem]
  constructor
  · rintro ⟨e, ⟨p, hp, rfl⟩, rfl⟩
    exact ⟨_, p, hp, rfl, rfl⟩
  · rintro ⟨e, p, hp, rfl, rfl⟩
    exact ⟨_, ⟨p, hp, rfl⟩, rfl⟩

/-- A further write appends the word to those listed, unless it is listed already. -/
theorem WriteLog.addr_insert (log : WriteLog) (a : Addr) (v : Word) (mask : Mask) :
    (log.insert a v mask).entries.toList.map (·.addr) =
      if a ∈ log.entries.toList.map (·.addr) then log.entries.toList.map (·.addr)
      else log.entries.toList.map (·.addr) ++ [a] := by
  unfold insert
  split
  · next p hpos =>
    obtain ⟨hp, ha⟩ := position_eq_some_iff.1 hpos
    rw [if_pos (mem_addr_iff.2 ⟨_, find?_eq_some_iff.2 ⟨p, hp, rfl, ha⟩⟩)]
    apply List.ext_getElem
    · simp [overlayAt]
    · intro i _ _
      simp only [overlayAt, List.getElem_map, Array.getElem_toList, Array.getElem_modify]
      split <;> rfl
  · next hpos =>
    have fresh : log.find? a = none := find?_eq_none_iff.2 (position_eq_none_iff.1 hpos)
    rw [if_neg (by rw [mem_addr_iff, fresh]; simp)]
    simp [append]

namespace WriteLog.StandsFor

variable {log : WriteLog} {M : PendingWrites}

theorem empty : WriteLog.empty.StandsFor .empty where
  order := rfl
  find? a := find?_empty a

theorem mem_order_iff (S : log.StandsFor M) {a : Addr} :
    a ∈ M.order ↔ ∃ e, log.find? a = some e := by
  rw [← S.order, mem_addr_iff]

/-- A write to both keeps them the same. -/
theorem insert (S : log.StandsFor M) (a : Addr) (v : Word) (mask : Mask) :
    (log.insert a v mask).StandsFor (M.insert a v mask) where
  order := by
    rw [addr_insert, S.order]
    rfl
  find? b := by
    rw [find?_insert]
    by_cases hb : b = a
    · subst hb
      rw [if_pos rfl, S.find? b]
      cases hM : M.pending b with
      | none =>
        simp [PendingWrites.find?, PendingWrites.insert, PendingWrites.overlay, entryAfter, hM,
          merge]
      | some old =>
        simp [PendingWrites.find?, PendingWrites.insert, PendingWrites.overlay, entryAfter, hM,
          WriteEntry.overlay]
    · rw [if_neg hb, S.find? b]
      simp [PendingWrites.find?, PendingWrites.insert, Function.update_of_ne hb]

/-- They have the same entries in the same order. -/
theorem entries (S : log.StandsFor M) : log.entries.toList = M.entries := by
  have found : ∀ e ∈ log.entries.toList, M.find? e.addr = some e := by
    intro e he
    obtain ⟨p, hp, rfl⟩ := Array.mem_iff_getElem.1 (Array.mem_toList_iff.1 he)
    rw [← S.find?]
    exact find?_eq_some_iff.2 ⟨p, hp, rfl, rfl⟩
  rw [PendingWrites.entries, ← S.order, List.filterMap_map]
  calc log.entries.toList
    _ = log.entries.toList.filterMap some := (List.filterMap_some).symm
    _ = log.entries.toList.filterMap (M.find? ∘ (·.addr)) :=
      List.filterMap_congr fun e he => (found e he).symm

/-- Written back, they make the same of every memory. -/
theorem writeBack (S : log.StandsFor M) (m : Memory) : log.writeBack m = M.writeBack m := by
  apply Memory.ext
  funext a
  rw [read_writeBack, S.find? a]
  cases hM : M.pending a <;> simp [PendingWrites.find?, PendingWrites.writeBack, hM]

end WriteLog.StandsFor

/-! ## Runs -/

theorem WriteBuffer.run_concat {σ : Type} (B : WriteBuffer σ) (m : Memory) (calls : List WriteCall)
    (call : WriteCall) : B.run m (calls ++ [call]) = B.call (B.run m calls) call :=
  List.foldl_concat ..

theorem written_concat (calls : List WriteCall) (call : WriteCall) :
    written (calls ++ [call]) = call.writes (written calls) :=
  List.foldl_concat ..

/-- A further word is a new one or changes nothing. -/
theorem eraseDups_concat (words : List Addr) (a : Addr) :
    (words ++ [a]).eraseDups =
      if a ∈ words.eraseDups then words.eraseDups else words.eraseDups ++ [a] := by
  rw [List.eraseDups_append]
  by_cases ha : a ∈ words
  · simp [List.removeAll, ha]
  · simp [List.removeAll, ha, List.eraseDups_cons]

namespace WriteLog

/-- What a log over memory has in common with a map over memory after the same calls. -/
structure Matches (calls : List WriteCall) (r : WriteRun WriteLog) (R : WriteRun PendingWrites) :
    Prop where
  /-- All look-ups so far were answered alike. -/
  answers : r.answers = R.answers
  /-- So would every further one be. -/
  find? : ∀ a, r.buffer.find? a = R.buffer.find? a
  /-- The entries are those of the map. -/
  entries : r.buffer.entries.toList = R.buffer.entries
  /-- There is one for each word written since everything was last dropped, in the order of the
  first writes. -/
  order : r.buffer.entries.toList.map (·.addr) = (written calls).eraseDups
  /-- So the log is as long as there are such words. -/
  size : r.buffer.size = (written calls).toFinset.card
  /-- No entry has a bit outside its mask. -/
  masked : ∀ e ∈ r.buffer.entries, e.value &&& ~~~e.mask = 0
  /-- Memory is the same. -/
  memory : r.memory = R.memory

/-- Every call keeps a log and a map the same. -/
theorem standsFor_run (m : Memory) (calls : List WriteCall) :
    (buffer.run m calls).buffer.StandsFor (PendingWrites.buffer.run m calls).buffer ∧
      (buffer.run m calls).answers = (PendingWrites.buffer.run m calls).answers ∧
      (buffer.run m calls).memory = (PendingWrites.buffer.run m calls).memory ∧
      (PendingWrites.buffer.run m calls).buffer.order = (written calls).eraseDups := by
  -- The last call comes after the run of those before it.
  induction calls using List.reverseRecOn with
  | nil => exact ⟨.empty, rfl, rfl, rfl⟩
  | append_singleton calls call ih =>
    obtain ⟨S, answers, memory, order⟩ := ih
    rw [WriteBuffer.run_concat, WriteBuffer.run_concat, written_concat]
    cases call with
    | insert a v mask =>
      refine ⟨S.insert a v mask, answers, memory, ?_⟩
      rw [WriteCall.writes, eraseDups_concat, ← order]
      rfl
    | find a =>
      refine ⟨S, ?_, memory, order⟩
      exact congrArg₂ (fun earlier answer => earlier ++ [answer]) answers (S.find? a)
    | clear => exact ⟨.empty, answers, memory, rfl⟩
    | writeBack => exact ⟨S, answers, (S.writeBack _).trans (congrArg _ memory), order⟩

/-- Whatever calls it is given, a write log over memory does what a map does. -/
theorem run_matches (m : Memory) (calls : List WriteCall) :
    Matches calls (buffer.run m calls) (PendingWrites.buffer.run m calls) := by
  obtain ⟨S, answers, memory, order⟩ := standsFor_run m calls
  have addrs :
      (buffer.run m calls).buffer.entries.toList.map (·.addr) = (written calls).eraseDups :=
    S.order.trans order
  refine ⟨answers, S.find?, S.entries, addrs, ?_, ?_, memory⟩
  · -- No word is listed twice, so that the list is as long as the set of its words.
    have nodup := (buffer.run m calls).buffer.nodup_addr
    rw [addrs] at nodup
    have same : (written calls).eraseDups.toFinset = (written calls).toFinset := by
      ext a
      simp
    rw [← same, List.toFinset_card_of_nodup nodup, ← addrs]
    simp [size]
  · intro e he
    obtain ⟨p, hp, rfl⟩ := Array.mem_iff_getElem.1 he
    exact (buffer.run m calls).buffer.masked p hp

end WriteLog

end HybridTM
