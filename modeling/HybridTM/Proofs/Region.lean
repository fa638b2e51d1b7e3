import HybridTM.Hardware.Backend
import HybridTM.Proofs.Logs

/-!
# Accesses of hardware regions

What one access of a region does to its logs, whatever the backend and its faults: it fails and
leaves the logs alone, or it is answered from the buffer, or it is logged (`Backend.read_cases`,
`Backend.write_cases`). Where there is hardware, a failed access dooms the region. A region commits
only over a memory that its reads are consistent with (`Backend.commit_ok`).
-/

set_option autoImplicit false

namespace HybridTM

/-! ## Logs against memory -/

/-- A read of the whole word is current just when memory holds the same word. -/
theorem ReadEntry.isCurrent_fullMask_iff {a : Addr} {v : Word} {m : Memory} :
    (ReadEntry.mk a v fullMask).isCurrent m = true ↔ m.read a = v := by
  rw [isCurrent, beq_iff_eq, Word.eq_iff_bit, Word.eq_iff_bit]
  refine forall_congr' fun i => forall_congr' fun hi => ?_
  rw [Word.bit_and, Word.bit_xor, Word.bit_fullMask i hi, Word.bit_zero, Bool.and_true]
  cases Word.bit (m.read a) i <;> cases Word.bit v i <;> simp

theorem ReadLog.isCurrent_of_mem {log : ReadLog} {m : Memory} (h : log.isConsistent m = true)
    {e : ReadEntry} (he : e ∈ log.entries) : e.isCurrent m = true := by
  rw [isConsistent, Array.all_eq_true_iff_forall_mem] at h
  exact h e he

/-- An empty write log writes nothing back. -/
theorem WriteLog.writeBack_of_isEmpty {log : WriteLog} (h : log.isEmpty = true) (m : Memory) :
    log.writeBack m = m := by
  apply Memory.ext
  funext a
  apply read_writeBack_of_find?_eq_none
  apply find?_eq_none_iff.2
  intro p hp
  have hsize : log.entries.size = 0 := by simpa [isEmpty] using h
  omega

/-- Revalidation moves the start and nothing else, and it does so only if the reads are current. -/
theorem Region.revalidate?_eq_some_iff {e : Emulator} {r r' : Region} {m : Memory} :
    r.revalidate? e m = some r' ↔ (e.version = r.start ∨ r.reads.isConsistent m = true) ∧
      r' = { r with start := e.version } := by
  unfold revalidate?
  split
  · next hversion =>
    rw [hversion, Option.some_inj, and_iff_right (Or.inl rfl)]
    exact eq_comm
  · next hversion =>
    rw [or_iff_right hversion]
    split
    · next hconsistent =>
      rw [Option.some_inj, and_iff_right hconsistent]
      exact eq_comm
    · next hconsistent => exact iff_of_false (Option.some_ne_none r').symm fun h => hconsistent h.1

namespace Backend

variable {b b' : Backend} {r r' : Region} {m m' : Memory} {a : Addr} {mask : Mask}

/-- A region that starts has accessed nothing. -/
theorem enter_ok (h : b.enter = (.ok r, b')) :
    r.reads = .empty ∧ r.writes = .empty ∧ r.doomed = .none ∧
      b.isSupported = true ∧ b'.isSupported = true := by
  cases b with
  | none => cases h
  | emulated e =>
    -- Faults decide whether a region starts, not how.
    rcases hforced : e.faults.takeForced with ⟨forced, faults⟩
    simp only [enter, Emulator.enter, hforced] at h
    cases forced with
    | some abort => cases h
    | none =>
      obtain ⟨hregion, rfl⟩ := Prod.mk.inj h
      obtain rfl := Except.ok.inj hregion
      exact ⟨rfl, rfl, rfl, rfl, rfl⟩

/-- An attempt to start a region does not change what there is. -/
theorem isSupported_enter {result : Except HardwareAbort Region} (h : b.enter = (result, b')) :
    b'.isSupported = b.isSupported := by
  cases b with
  | none =>
    obtain ⟨-, rfl⟩ := Prod.mk.inj h
    rfl
  | emulated e =>
    rcases henter : e.enter with ⟨result', e'⟩
    rw [enter, henter] at h
    obtain ⟨-, rfl⟩ := Prod.mk.inj h
    rfl

theorem isSupported_modifyFaults (f : Faults → Faults) :
    (b.modifyFaults f).isSupported = b.isSupported := by
  cases b <;> rfl

theorem read_cases {result : Except HardwareAbort Word} (h : b.read r m a mask = (result, r')) :
    (∃ abort, result = .error abort ∧ r'.reads = r.reads ∧ r'.writes = r.writes ∧
        (b.isSupported = true → r'.doomed ≠ .none)) ∨
      (r.doomed = .none ∧ r'.doomed = .none ∧ r'.writes = r.writes ∧
        ∃ bits covered, r.writes.lookup a mask = (bits, covered) ∧
          ((covered = mask ∧ result = .ok (bits &&& mask) ∧ r'.reads = r.reads) ∨
            (covered ≠ mask ∧
              result = .ok (merge (m.read a &&& (mask &&& ~~~covered)) bits covered) ∧
              r'.reads = r.reads.record a (m.read a) (mask &&& ~~~covered)))) := by
  cases b with
  | none =>
    obtain ⟨rfl, rfl⟩ := Prod.mk.inj h
    exact Or.inl ⟨_, rfl, rfl, rfl, fun hs => by cases hs⟩
  | emulated e =>
    simp only [read, Region.read] at h
    split at h
    · next abort hdoomed =>
      obtain ⟨rfl, rfl⟩ := Prod.mk.inj h
      exact Or.inl ⟨abort, rfl, rfl, rfl, fun _ => by rw [hdoomed]; simp⟩
    · next hdoomed =>
      rcases hl : r.writes.lookup a mask with ⟨bits, covered⟩
      rw [hl] at h
      simp only at h
      split at h
      · next hcovered =>
        obtain ⟨rfl, rfl⟩ := Prod.mk.inj h
        exact Or.inr ⟨hdoomed, hdoomed, rfl, bits, covered, rfl, Or.inl ⟨hcovered, rfl, rfl⟩⟩
      · next hcovered =>
        split at h
        · obtain ⟨rfl, rfl⟩ := Prod.mk.inj h
          exact Or.inl ⟨_, rfl, rfl, rfl, fun _ => by simp [Region.doom]⟩
        · split at h
          · obtain ⟨rfl, rfl⟩ := Prod.mk.inj h
            exact Or.inl ⟨_, rfl, rfl, rfl, fun _ => by simp [Region.doom]⟩
          · next r₁ hrevalidate =>
            obtain ⟨-, rfl⟩ := Region.revalidate?_eq_some_iff.1 hrevalidate
            obtain ⟨rfl, rfl⟩ := Prod.mk.inj h
            exact Or.inr ⟨hdoomed, hdoomed, rfl, bits, covered, rfl, Or.inr ⟨hcovered, rfl, rfl⟩⟩

theorem write_cases {v : Word} {result : Except HardwareAbort Unit}
    (h : b.write r a v mask = (result, r')) :
    (∃ abort, result = .error abort ∧ r'.reads = r.reads ∧ r'.writes = r.writes ∧
        (b.isSupported = true → r'.doomed ≠ .none)) ∨
      (r.doomed = .none ∧ result = .ok () ∧
        r' = { r with writes := r.writes.insert a v mask }) := by
  cases b with
  | none =>
    obtain ⟨rfl, rfl⟩ := Prod.mk.inj h
    exact Or.inl ⟨_, rfl, rfl, rfl, fun hs => by cases hs⟩
  | emulated e =>
    simp only [write, Region.write] at h
    split at h
    · next abort hdoomed =>
      obtain ⟨rfl, rfl⟩ := Prod.mk.inj h
      exact Or.inl ⟨abort, rfl, rfl, rfl, fun _ => by rw [hdoomed]; simp⟩
    · next hdoomed =>
      split at h
      · obtain ⟨rfl, rfl⟩ := Prod.mk.inj h
        exact Or.inl ⟨_, rfl, rfl, rfl, fun _ => by simp [Region.doom]⟩
      · obtain ⟨rfl, rfl⟩ := Prod.mk.inj h
        exact Or.inr ⟨hdoomed, rfl, rfl⟩

/-- A region that has written nothing reads a word as it is in memory. -/
theorem read_of_writes_eq_empty {word : Word} (hwrites : r.writes = .empty)
    (h : b.read r m a fullMask = (.ok word, r')) :
    word = m.read a ∧ r'.reads = r.reads.record a word fullMask ∧ r'.writes = .empty := by
  rcases read_cases h with ⟨abort, herror, -⟩ | ⟨-, -, hw, bits, covered, hl, hcase⟩
  · cases herror
  · have hlookup : (bits, covered) = ((0 : Word), (0 : Mask)) := by
      rw [← hl, hwrites, WriteLog.lookup, WriteLog.find?_empty]
    obtain ⟨rfl, rfl⟩ := Prod.mk.inj hlookup
    rcases hcase with ⟨hcovered, -⟩ | ⟨-, hvalue, hr⟩
    · cases hcovered
    · -- Nothing is buffered, so the whole word comes from memory.
      have hall : fullMask &&& ~~~(0 : Mask) = fullMask := by decide
      have hword : word = m.read a := by
        rw [Except.ok.inj hvalue, merge_zero, hall]
        apply Word.ext_bit
        intro i hi
        rw [Word.bit_and, Word.bit_fullMask i hi, Bool.and_true]
      exact ⟨hword, by rw [hr, hall, ← hword], by rw [hw, hwrites]⟩

/-- A region that commits finds its reads consistent with memory and writes its buffer back. -/
theorem commit_ok (h : b.commit r m = .ok (b', m')) :
    r.reads.isConsistent m = true ∧ m' = r.writes.writeBack m ∧ b.isSupported = true ∧
      b'.isSupported = true := by
  cases b with
  | none => cases h
  | emulated e =>
    unfold commit Emulator.commit at h
    simp only at h
    split at h
    · next hconsistent =>
      split at h
      · next hempty =>
        -- A region without writes leaves memory alone.
        obtain ⟨rfl, rfl⟩ : _ ∧ _ := by simpa [Except.map] using h
        exact ⟨hconsistent, (WriteLog.writeBack_of_isEmpty hempty m).symm, rfl, rfl⟩
      · obtain ⟨rfl, rfl⟩ : _ ∧ _ := by simpa [Except.map] using h
        exact ⟨hconsistent, rfl, rfl, rfl⟩
    · cases h

/-- A region whose reads are not consistent with memory fails to commit. -/
theorem commit_of_not_consistent (h : r.reads.isConsistent m = false) :
    ∃ abort, b.commit r m = .error abort := by
  cases hcommit : b.commit r m with
  | error abort => exact ⟨abort, rfl⟩
  | ok result =>
    have := (commit_ok hcommit).1
    rw [h] at this
    cases this

/-- The logs account for a read. -/
theorem records_read {t : List Access} (R : Records t r.reads r.writes)
    {result : Except HardwareAbort Word} (h : b.read r m a mask = (result, r')) :
    Records (t ++ [.read a mask (result.mapError .hardware)]) r'.reads r'.writes := by
  rcases read_cases h with ⟨abort, rfl, hr, hw, -⟩ | ⟨-, -, hw, bits, covered, hl, hcase⟩
  · rw [hr, hw]
    exact R.failed a mask _
  -- The value comes from the buffer, or from memory with an entry in the log.
  rcases hcase with ⟨rfl, rfl, hr⟩ | ⟨-, rfl, hr⟩
  · rw [hr, hw]
    exact R.buffered hl
  · rw [hr, hw]
    exact R.fetched hl _

/-- A write leaves the start of a region alone. -/
theorem start_write (b : Backend) (r : Region) (a : Addr) (v : Word) (mask : Mask) :
    (b.write r a v mask).2.start = r.start := by
  cases b with
  | none => rfl
  | emulated e =>
    simp only [write, Region.write]
    split
    · rfl
    · split <;> rfl

/-! ## Versions -/

section

variable {e : Emulator}

/-- To start a region is no publication. -/
theorem enter_emulated {result : Except HardwareAbort Region}
    (h : (emulated e).enter = (result, b')) : ∃ e', b' = .emulated e' ∧ e'.version = e.version := by
  rcases hforced : e.faults.takeForced with ⟨_ | abort, faults⟩ <;>
    simp only [enter, Emulator.enter, hforced] at h <;> obtain ⟨-, rfl⟩ := Prod.mk.inj h <;>
    exact ⟨_, rfl, rfl⟩

/-- A commit is a publication if there is something to write. -/
theorem commit_emulated {r : Region} (h : (emulated e).commit r m = .ok (b', m')) :
    ∃ e', b' = .emulated e' ∧
      ((e'.version = e.version ∧ m' = m) ∨ e'.version = e.version + 2) := by
  unfold commit Emulator.commit at h
  simp only at h
  split at h
  · split at h
    · obtain ⟨rfl, rfl⟩ : _ ∧ _ := by simpa [Except.map] using h
      exact ⟨_, rfl, Or.inl ⟨rfl, rfl⟩⟩
    · obtain ⟨rfl, -⟩ : _ ∧ _ := by simpa [Except.map] using h
      exact ⟨_, rfl, Or.inr rfl⟩
  · cases h

/-- A compare-and-swap is always a publication. -/
theorem compareExchange_emulated {a : Addr} {current new : Word} {seen : Except Word Word}
    (h : (emulated e).compareExchange m a current new = (seen, b', m')) :
    m.compareExchange a current new = (seen, m') ∧
      ∃ e', b' = .emulated e' ∧ e'.version = e.version + 2 := by
  obtain ⟨rfl, hrest⟩ := Prod.mk.inj h
  obtain ⟨rfl, rfl⟩ := Prod.mk.inj hrest
  exact ⟨rfl, _, rfl, rfl⟩

end

end Backend

/-- A read leaves the start of a region alone, or moves it to a version at which all reads before it
are current. -/
theorem Region.start_of_read {e : Emulator} {r r' : Region} {m : Memory} {a : Addr} {mask : Mask}
    {result : Except HardwareAbort Word} (h : r.read e m a mask = (result, r')) :
    (r'.start = r.start ∧ r'.reads = r.reads) ∨
      (r'.start = e.version ∧ (e.version = r.start ∨ r.reads.isConsistent m = true) ∧
        ∃ rest, r'.reads = r.reads.record a (m.read a) rest) := by
  unfold read at h
  rcases hl : r.writes.lookup a mask with ⟨bits, covered⟩
  rw [hl] at h
  simp only at h
  split at h
  · obtain ⟨-, rfl⟩ := Prod.mk.inj h
    exact Or.inl ⟨rfl, rfl⟩
  split at h
  · obtain ⟨-, rfl⟩ := Prod.mk.inj h
    exact Or.inl ⟨rfl, rfl⟩
  split at h
  · obtain ⟨-, rfl⟩ := Prod.mk.inj h
    exact Or.inl ⟨rfl, rfl⟩
  split at h
  · obtain ⟨-, rfl⟩ := Prod.mk.inj h
    exact Or.inl ⟨rfl, rfl⟩
  · next r₁ hrevalidate =>
    obtain ⟨hcurrent, rfl⟩ := revalidate?_eq_some_iff.1 hrevalidate
    obtain ⟨-, rfl⟩ := Prod.mk.inj h
    exact Or.inr ⟨rfl, hcurrent, _, rfl⟩

end HybridTM
