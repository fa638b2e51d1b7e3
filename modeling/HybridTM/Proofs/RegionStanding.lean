import HybridTM.Proofs.Attempt
import HybridTM.Proofs.Region

/-!
# Where a region stands

A region stands somewhere in the history of the memories that were published since it began: what it
read from memory is what is there at that moment (`Region.Stands`). Reads and writes keep it
standing, and so does every publication. A read that takes bits from memory moves the region to the
end of the history (`Region.Stands.read`).

The version has 64 bits and comes round. Of single memories this is therefore said as long as there
were fewer publications since the region began than there are versions. What the logs account for is
said without this condition.
-/

set_option autoImplicit false

namespace HybridTM

/-! ## Versions and publications -/

/-- The history once a backend has changed over a memory: a new version is a publication. -/
def History.track (h : History) (b b' : Backend) (m : Memory) : History :=
  if b'.emulator?.map (·.version) = b.emulator?.map (·.version) then h else h.publish m

namespace History

variable {h : History} {e e' : Emulator} {m : Memory}

theorem track_same (hversion : e'.version = e.version) :
    h.track (.emulated e) (.emulated e') m = h := by
  simp [track, Backend.emulator?, hversion]

theorem track_publish (hversion : e'.version = e.version + 2) :
    h.track (.emulated e) (.emulated e') m = h.publish m := by
  have hne : e.version + 2 ≠ e.version := by
    intro hsame
    have := congrArg UInt64.toNat hsame
    rw [UInt64.toNat_add, show UInt64.toNat 2 = 2 from rfl] at this
    omega
  simp [track, Backend.emulator?, hversion, hne]

/-- Version, memory and history go on together. -/
theorem track_follows {m' : Memory} {h' : History} (hcount : e.version = stamp h.count)
    (hlast : m = h.last) (hversion : (e'.version = e.version ∧ m' = m) ∨ e'.version = e.version + 2)
    (htrack : h.track (.emulated e) (.emulated e') m' = h') :
    e'.version = stamp h'.count ∧ m' = h'.last ∧ (h' = h ∨ ∃ m, h' = h.publish m) := by
  subst htrack
  rcases hversion with ⟨hsame, rfl⟩ | hnext
  · rw [track_same hsame]
    exact ⟨hsame.trans hcount, hlast, Or.inl rfl⟩
  · rw [track_publish hnext]
    refine ⟨?_, (last_publish m').symm, Or.inr ⟨m', rfl⟩⟩
    rw [hnext, hcount, stamp_succ, count_publish]

end History

/-! ## Regions -/

/-- A region stands somewhere in a history since it began, with what its body did. -/
structure Region.Stands (h : History) (since : Nat) (t : List Access) (r : Region) : Prop where
  /-- Its logs account for its accesses. -/
  records : Records t r.reads r.writes
  /-- It began in the past. -/
  since_le : since ≤ h.count
  /-- Until the version comes round, its start shows a memory that its reads agree with. -/
  snapshot : h.count < since + clockLimit →
    ∃ k, since ≤ k ∧ k ≤ h.count ∧ r.start = stamp k ∧ r.reads.isConsistent (h.memory k) = true

namespace Region.Stands

variable {h : History} {since : Nat} {t : List Access} {r r' : Region}

theorem publish (S : r.Stands h since t) (m : Memory) : r.Stands (h.publish m) since t where
  records := S.records
  since_le := Nat.le_succ_of_le S.since_le
  snapshot hroom := by
    obtain ⟨k, hsince, hk, hstart, hreads⟩ := S.snapshot (Nat.lt_of_succ_lt hroom)
    refine ⟨k, hsince, Nat.le_succ_of_le hk, hstart, ?_⟩
    rwa [History.memory_publish_of_le hk]

/-- A region that has just begun stands at the end of the history. -/
theorem enter {e : Emulator} {b' : Backend} (hversion : e.version = stamp h.count)
    (henter : (Backend.emulated e).enter = (.ok r, b')) : r.Stands h h.count [] := by
  obtain ⟨hreads, hwrites, -⟩ := Backend.enter_ok henter
  have hstart : r.start = e.version := by
    rcases hforced : e.faults.takeForced with ⟨_ | abort, faults⟩ <;>
      simp only [Backend.enter, Emulator.enter, hforced] at henter
    · obtain rfl := Except.ok.inj (Prod.mk.inj henter).1
      rfl
    · cases (Prod.mk.inj henter).1
  refine ⟨?_, Nat.le_refl _, fun _ => ⟨h.count, Nat.le_refl _, Nat.le_refl _, ?_, ?_⟩⟩
  · rw [hreads, hwrites]
    exact .empty
  · rw [hstart, hversion]
  · rw [hreads]
    exact ReadLog.isConsistent_empty _

/-- A read keeps a region standing: if it takes bits from memory, the region moves to the end of the
history. -/
theorem read (S : r.Stands h since t) {e : Emulator} (hversion : e.version = stamp h.count)
    {a : Addr} {mask : Mask} {result : Except HardwareAbort Word}
    (hread : (Backend.emulated e).read r h.last a mask = (result, r')) :
    r'.Stands h since (t ++ [.read a mask (result.mapError .hardware)]) where
  records := Backend.records_read S.records hread
  since_le := S.since_le
  snapshot hroom := by
    obtain ⟨k, hsince, hk, hstart, hreads⟩ := S.snapshot hroom
    rcases Region.start_of_read hread with ⟨hstart', hreads'⟩ | ⟨hstart', hcurrent, rest, hreads'⟩
    · rw [hstart', hreads']
      exact ⟨k, hsince, hk, hstart, hreads⟩
    · -- The start still shows the last version only if nothing was published.
      have hlast : r.reads.isConsistent h.last = true := by
        rcases hcurrent with hsame | hconsistent
        · have hcount : h.count = k := by
            refine eq_of_stamp_eq hk (by omega) ?_
            rw [← hversion, hsame, hstart]
          rw [History.last, hcount]
          exact hreads
        · exact hconsistent
      refine ⟨h.count, S.since_le, Nat.le_refl _, hstart'.trans hversion, ?_⟩
      rw [hreads', ReadLog.isConsistent_record, Bool.and_eq_true]
      exact ⟨hlast, by simp [ReadEntry.isCurrent, History.last]⟩

theorem doom (S : r.Stands h since t) (abort : HardwareAbort) : (r.doom abort).Stands h since t :=
  ⟨S.records, S.since_le, S.snapshot⟩

/-- A write that succeeds is buffered. -/
theorem write (S : r.Stands h since t) {b : Backend} {a : Addr} {v : Word} {mask : Mask}
    (hwrite : b.write r a v mask = (.ok (), r')) : r'.Stands h since (t ++ [.write a v mask]) := by
  rcases Backend.write_cases hwrite with ⟨abort, hfailed, -⟩ | ⟨-, -, rfl⟩
  · cases hfailed
  · exact ⟨S.records.write a v mask, S.since_le, S.snapshot⟩

/-- A write that fails leaves nothing behind. -/
theorem write_error (S : r.Stands h since t) {b : Backend} {a : Addr} {v : Word} {mask : Mask}
    {abort : HardwareAbort} (hwrite : b.write r a v mask = (.error abort, r')) :
    r'.Stands h since t := by
  have hstart : r'.start = r.start := by rw [← b.start_write r a v mask, hwrite]
  rcases Backend.write_cases hwrite with ⟨-, -, hreads, hwrites, -⟩ | ⟨-, hok, -⟩
  · refine ⟨?_, S.since_le, ?_⟩
    · rw [hreads, hwrites]
      exact S.records
    · rw [hstart, hreads]
      exact S.snapshot
  · cases hok

end Region.Stands

end HybridTM
