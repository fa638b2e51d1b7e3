import HybridTM.Proofs.RegionSystem

/-!
# Isolation of emulated regions

In every reachable state each region that is under way stands at one memory of the history that was
current at some moment since it began, and all it has read is what it would have read running alone
on that memory; a region commits only if this is so of the memory in front of it, and all of its
writes appear at once; and the commits together with the compare-and-swaps are a serial run in the
order in which they happened (`isolated_of_reachable`).
-/

set_option autoImplicit false

namespace HybridTM

theorem Deed.serialFrom_concat {ι : Type} {m m' : Memory} {ds : List (Deed ι)} {d : Deed ι} :
    SerialFrom m (ds ++ [d]) m' ↔ ∃ m₁, SerialFrom m ds m₁ ∧ d.Holds m₁ ∧ d.apply m₁ = m' := by
  induction ds generalizing m with
  | nil => simp [SerialFrom]
  | cons e ds ih =>
    simp only [List.cons_append, SerialFrom, ih]
    constructor
    · rintro ⟨he, m₁, hds, hd⟩
      exact ⟨m₁, ⟨he, hds⟩, hd⟩
    · rintro ⟨m₁, ⟨he, hds⟩, hd⟩
      exact ⟨he, m₁, hds, hd⟩

namespace RegionSystem

/-! ## What is proved of the system -/

/-- What holds in every reachable state. -/
structure Isolated {ι : Type} [DecidableEq ι] (m₀ : Memory) (s : RegionSystem ι) : Prop where
  /-- The history begins with the initial memory. -/
  first : s.history.memory 0 = m₀
  /-- It ends with the current one. -/
  last : s.memory = s.history.last
  /-- All bits that a region under way took from memory agree with one memory that was current at
  some moment since it began, and all it read is that memory, overlaid with its own earlier writes
  and restricted to the mask. The version has 64 bits: this holds until it has come round. -/
  regions : ∀ i r, (s.execution i).region? = some r → s.history.count < s.since i + clockLimit →
    ∃ k, s.since i ≤ k ∧ k ≤ s.history.count ∧ r.reads.isConsistent (s.history.memory k) = true ∧
      Agrees (s.trace i) (s.history.memory k)
  /-- A call that commits a region finds all it read to be so in the memory in front of it, and
  makes of this memory what its writes make of it. -/
  commits : ∀ c s', s.call c = some s' → ∀ i t, s'.Committed i t → ¬ s.Committed i t →
    ∃ r value, s.execution i = .committing r value ∧ t = s.trace i ∧
      r.reads.isConsistent s.memory = true ∧ Agrees t s.memory ∧ s'.memory = after t s.memory
  /-- Nothing else changes memory but a compare-and-swap, and either of them is entered in the
  record. -/
  others : ∀ c s', s.call c = some s' → s'.memory ≠ s.memory →
    ∃ d, s'.deeds = s.deeds ++ [d] ∧ d.Holds s.memory ∧ s'.memory = d.apply s.memory
  /-- The record has the commits of all regions that committed. -/
  recorded : ∀ i t, .commit i t ∈ s.deeds ↔ s.Committed i t
  /-- It has each of them once. -/
  once : (s.deeds.filterMap Deed.region?).Nodup
  /-- Commits and compare-and-swaps are a serial run from the initial memory to the current one. -/
  serial : Deed.SerialFrom m₀ s.deeds s.memory

/-! ## The record is a serial run -/

variable {ι : Type} {m₀ : Memory} {s s' : RegionSystem ι}

/-- The record is complete and serial. -/
structure Recorded (m₀ : Memory) (s : RegionSystem ι) : Prop where
  /-- It has the commits of all regions that committed. -/
  committed : ∀ i t, .commit i t ∈ s.deeds ↔ s.Committed i t
  /-- It has each of them once. -/
  once : (s.deeds.filterMap Deed.region?).Nodup
  /-- It leads from the initial memory to the current one. -/
  serial : Deed.SerialFrom m₀ s.deeds s.memory

theorem recorded_init (capacity : Nat) (m : Memory) :
    Recorded m (init capacity m : RegionSystem ι) where
  committed i t := by simp [init, Committed]
  once := List.nodup_nil
  serial := rfl

/-- A deed that is entered once keeps the record. -/
theorem Recorded.append (R : Recorded m₀ s) {d : Deed ι} (holds : d.Holds s.memory)
    (memory : s'.memory = d.apply s.memory) (deeds : s'.deeds = s.deeds ++ [d])
    (fresh : ∀ i t t', d = .commit i t → ¬ s.Committed i t')
    (committed : ∀ i t, s'.Committed i t ↔ s.Committed i t ∨ .commit i t = d) :
    Recorded m₀ s' where
  committed i t := by
    rw [deeds, List.mem_append, List.mem_singleton, R.committed, committed]
  once := by
    rw [deeds, List.filterMap_append, List.nodup_append]
    refine ⟨R.once, by cases d <;> simp [List.filterMap, Deed.region?], ?_⟩
    intro i hi j hj hij
    subst hij
    -- A region that has committed does not commit again.
    obtain ⟨e, he, hei⟩ := List.mem_filterMap.1 hi
    obtain ⟨d', hd', hdi⟩ := List.mem_filterMap.1 hj
    obtain rfl := List.mem_singleton.1 hd'
    obtain ⟨t, rfl⟩ := Deed.region?_eq_some_iff.1 hei
    obtain ⟨t', rfl⟩ := Deed.region?_eq_some_iff.1 hdi
    exact fresh i t' t rfl ((R.committed i t).1 he)
  serial := by
    rw [deeds, Deed.serialFrom_concat]
    exact ⟨s.memory, R.serial, holds, memory.symm⟩

theorem Recorded.step (R : Recorded m₀ s) (E : Effect s s') : Recorded m₀ s' := by
  cases E with
  | quiet memory deeds committed =>
    exact ⟨by rw [deeds]; exact fun i t => (R.committed i t).trans (committed i t).symm,
      by rw [deeds]; exact R.once, by rw [deeds, memory]; exact R.serial⟩
  | commit i r value stage current agrees memory deeds committed =>
    have hfresh (j : ι) (t t' : List Access) (hj : Deed.commit i (s.trace i) = .commit j t) :
        ¬ s.Committed j t' := by
      obtain ⟨rfl, -⟩ := Deed.commit.inj hj
      rintro ⟨⟨value', hdone⟩, -⟩
      rw [stage] at hdone
      cases hdone
    have holds : (Deed.commit i (s.trace i)).Holds s.memory := agrees
    refine R.append holds memory deeds hfresh fun j t => ?_
    rw [committed, Deed.commit.injEq]
  | exchange a current new seen found memory deeds committed =>
    have holds : (Deed.exchange (ι := ι) a current new seen).Holds s.memory := found
    refine R.append holds memory deeds (fun i t t' hd => by cases hd) fun i t => ?_
    simp [committed]

variable [DecidableEq ι]

theorem standing_of_reachable {capacity : Nat} (h : Reachable capacity m₀ s) :
    s.Standing m₀ ∧ Recorded m₀ s := by
  induction h with
  | refl => exact ⟨.init capacity m₀, recorded_init capacity m₀⟩
  | tail _ hstep ih =>
    obtain ⟨I, R⟩ := ih
    obtain ⟨I', E⟩ := I.step hstep
    exact ⟨I', R.step E⟩

/-- In every reachable state the regions of an emulator are isolated from each other and from
compare-and-swaps. -/
theorem isolated_of_reachable {capacity : Nat} (h : Reachable capacity m₀ s) : Isolated m₀ s := by
  obtain ⟨I, R⟩ := standing_of_reachable h
  refine ⟨I.first, I.memory, ?_, ?_, ?_, R.committed, R.once, R.serial⟩
  · intro i r hr hroom
    have S := I.region i r hr
    obtain ⟨k, hsince, hk, -, hreads⟩ := S.snapshot hroom
    exact ⟨k, hsince, hk, hreads, (S.records.consistent _).1 hreads⟩
  · intro c s' hcall i t hafter hbefore
    cases (I.step ⟨c, hcall⟩).2 with
    | quiet memory deeds committed => exact absurd ((committed i t).1 hafter) hbefore
    | commit j r value stage current agrees memory deeds committed =>
      rcases (committed i t).1 hafter with hbefore' | ⟨rfl, rfl⟩
      · exact absurd hbefore' hbefore
      · exact ⟨r, value, stage, rfl, current, agrees, memory⟩
    | exchange a current new seen found memory deeds committed =>
      exact absurd ((committed i t).1 hafter) hbefore
  · intro c s' hcall hmemory
    cases (I.step ⟨c, hcall⟩).2 with
    | quiet memory deeds committed => exact absurd memory hmemory
    | commit j r value stage current agrees memory deeds committed =>
      exact ⟨_, deeds, agrees, memory⟩
    | exchange a current new seen found memory deeds committed => exact ⟨_, deeds, found, memory⟩

theorem reachable_of_run {capacity : Nat} {calls : List (RegionCall ι)}
    (h : Reachable capacity m₀ s) (hrun : s.run calls = some s') : Reachable capacity m₀ s' := by
  refine h.trans (reflTransGen_of_run (fun _ => rfl) (fun s c calls s' h => ?_) hrun)
  obtain ⟨s₁, hcall, hrest⟩ := Option.bind_eq_some_iff.1 h
  exact ⟨s₁, ⟨c, hcall⟩, hrest⟩

/-- Among swaps that succeed and fail, two regions commit, one meets a conflict, and one moves on to
the last memory. -/
def mixedCalls : List (RegionCall Nat) :=
  [.advance 0, .read 0 0 fullMask, .write 0 8 5 0xFF, .exchange 16 0 3, .read 0 16 fullMask,
    .advance 1, .read 1 0 fullMask, .write 1 0 9 fullMask, .endBody 1 (.ok 1), .advance 1,
    .advance 1, .advance 2, .read 2 0 fullMask, .exchange 0 1 2, .read 2 16 0xF,
    .read 0 24 fullMask, .advance 3, .write 3 8 7 0xF0, .endBody 3 (.ok 0), .advance 3, .advance 3]

/-- The regions that commit are recorded with the swaps, and the others are still under way. -/
theorem isolated_of_mixedCalls :
    ∃ s, (init 4 .zero).run mixedCalls = some s ∧ Reachable 4 .zero s ∧ s.deeds.length = 4 ∧
      (s.execution 0).region?.bind (·.doomed) = some .conflict ∧
      (s.execution 2).region?.map (·.start) = some (stamp 3) ∧ Isolated .zero s := by
  have facts : ((init 4 .zero).run mixedCalls).map (fun s => (s.deeds.length,
      (s.execution 0).region?.bind (·.doomed), (s.execution 2).region?.map (·.start))) =
      some (4, some .conflict, some (stamp 3)) := by
    decide +kernel
  obtain ⟨s, hrun, hs⟩ := Option.map_eq_some_iff.1 facts
  obtain ⟨hdeeds, hs⟩ := Prod.mk.inj hs
  obtain ⟨hdoomed, hstart⟩ := Prod.mk.inj hs
  have hreach : Reachable 4 .zero s := reachable_of_run .refl hrun
  exact ⟨s, hrun, hreach, hdeeds, hdoomed, hstart, isolated_of_reachable hreach⟩

end RegionSystem

end HybridTM
