import HybridTM.Hybrid.Heuristic
import HybridTM.Proofs.Runs

/-!
# The history of a heuristic

A history keeps beside a heuristic all that was reported to it, with its answers (`CostHistory`).
An answer can be an overflow, and the reports go on after it. What the heuristic accumulates is read
off the history: counts and tick sums are those of the records since the last sample, each sample is
that of the records of its own window, and capacity aborts are in a row as long as no report ends
the row (`Sampled`).

This holds after any reports under any settings (`sampled_of`). As long as the ticks of a window can
be added up (`Fits`), its records stay below the rate, and the one that reaches it is answered with
a sample. `Proofs/CostSums.lean` and `Proofs/SoftwareWindows.lean` go on from there.
-/

set_option autoImplicit false

namespace HybridTM

/-! ## Reports -/

/-- What is reported to a heuristic. -/
inductive CostReport where
  /-- A hardware region committed. -/
  | hardwareCommit (ticks : UInt64)
  /-- A hardware region aborted. -/
  | hardwareAbort (ticks : UInt64) (abort : HardwareAbort)
  /-- The software epoch made a commit. -/
  | softwareCommit (ticks : UInt64)
  /-- A software epoch begins. -/
  | epoch

/-- A report and the answer to it. -/
structure CostEntry where
  /-- The report. -/
  report : CostReport
  /-- The sample that it completed. -/
  sample : Option HardwareSample := none
  /-- The verdict on it. -/
  verdict : Option Verdict := none
  /-- The overflow that there was instead of an answer. -/
  overflow : Option Overflow := none

namespace CostReport

/-- A region committed. -/
def isCommit : CostReport → Bool
  | .hardwareCommit _ => true
  | _ => false

/-- The abort of a region. -/
def abort? : CostReport → Option HardwareAbort
  | .hardwareAbort _ abort => some abort
  | _ => none

/-- A region aborted. -/
def isAbort (r : CostReport) : Bool := r.abort?.isSome

/-- A region aborted itself. -/
def isExplicitAbort (r : CostReport) : Bool := r.abort?.any (·.explicitCode?.isSome)

/-- A region outgrew the hardware. -/
def isCapacityAbort (r : CostReport) : Bool := r.abort?.any (·.isCapacity)

/-- The ticks of a committed region. -/
def commitTicks : CostReport → Nat
  | .hardwareCommit ticks => ticks.toNat
  | _ => 0

/-- The ticks of an aborted region. -/
def abortTicks : CostReport → Nat
  | .hardwareAbort ticks _ => ticks.toNat
  | _ => 0

/-- The report is of a region. -/
def isHardware (r : CostReport) : Bool := r.isCommit || r.isAbort

/-- An epoch is to begin. -/
def isEpoch : CostReport → Bool
  | .epoch => true
  | _ => false

end CostReport

namespace CostEntry

/-- The answer to the report of a region. -/
def ofRecord (r : CostReport) : Except Overflow (Option HardwareSample) → CostEntry
  | .ok sample => { report := r, sample := sample }
  | .error overflow => { report := r, overflow := some overflow }

/-- An epoch began. With an overflow there is none. -/
def beginsEpoch (x : CostEntry) : Bool := x.report.isEpoch && x.overflow.isNone

/-- Capacity aborts that come after the entry are not in a row with those before it. -/
def endsCapacityRun (x : CostEntry) : Bool :=
  x.beginsEpoch || x.report.isCommit || x.report.abort?.any (!·.isCapacity)

end CostEntry

namespace Heuristic

/-- The answer to a report, and the state after it. -/
def report (h : Heuristic) : CostReport → CostEntry × Heuristic
  | .hardwareCommit ticks =>
      (h.recordHardwareCommit ticks).map (.ofRecord (.hardwareCommit ticks)) id
  | .hardwareAbort ticks abort =>
      (h.recordHardwareAbort ticks abort).map (.ofRecord (.hardwareAbort ticks abort)) id
  | .softwareCommit ticks =>
      let (verdict, h) := h.recordSoftwareCommit ticks
      ({ report := .softwareCommit ticks, verdict := some verdict }, h)
  | .epoch =>
      match h.beginEpoch with
      | .ok h => ({ report := .epoch }, h)
      | .error overflow => ({ report := .epoch, overflow := some overflow }, h)

theorem report_report (h : Heuristic) (r : CostReport) : (h.report r).1.report = r := by
  have recorded (r : CostReport) (result : Except Overflow (Option HardwareSample)) :
      (CostEntry.ofRecord r result).report = r := by
    cases result <;> rfl
  cases r with
  | hardwareCommit ticks => exact recorded _ _
  | hardwareAbort ticks abort => exact recorded _ _
  | softwareCommit ticks => rfl
  | epoch =>
    unfold report
    simp only
    split <;> rfl

end Heuristic

/-- A heuristic with what was reported to it. -/
structure CostHistory where
  /-- The heuristic. -/
  heuristic : Heuristic
  /-- All reports with the answers, oldest first. -/
  entries : List CostEntry

namespace CostHistory

/-- The history of a heuristic to which nothing was reported. -/
def init (c : HybridConfig) : CostHistory := ⟨.new c, []⟩

/-- The entry of a report that comes next. -/
def answer (H : CostHistory) (r : CostReport) : CostEntry := (H.heuristic.report r).1

/-- The history with a report more. -/
def add (H : CostHistory) (r : CostReport) : CostHistory :=
  ⟨(H.heuristic.report r).2, H.entries ++ [H.answer r]⟩

/-- The history of reports. -/
def of (c : HybridConfig) (reports : List CostReport) : CostHistory := reports.foldl add (init c)

/-- What holds before any report and with each more holds of every history. -/
theorem of_induction {P : CostHistory → Prop} {c : HybridConfig} (init : P (init c))
    (add : ∀ H r, P H → P (H.add r)) (reports : List CostReport) : P (of c reports) := by
  induction reports using List.reverseRecOn with
  | nil => exact init
  | append_singleton reports r ih =>
    rw [of, List.foldl_concat]
    exact add _ r ih

end CostHistory

/-! ## Settings -/

namespace HybridConfig

/-- The commits or aborts that complete a sample. -/
def rate (c : HybridConfig) : Nat := max c.samplingRate.toNat 1

/-- The first software window. -/
def firstWindow (c : HybridConfig) : Nat := max c.windowInitial.toNat 1

/-- The largest software window. -/
def largestWindow (c : HybridConfig) : Nat := max c.windowMax.toNat c.firstWindow

variable (c : HybridConfig)

theorem rate_pos : 0 < c.rate := Nat.le_max_right ..

theorem rate_lt : c.rate < 2 ^ 32 := Nat.max_lt.2 ⟨c.samplingRate.toNat_lt, by decide⟩

theorem firstWindow_pos : 0 < c.firstWindow := Nat.le_max_right ..

theorem firstWindow_le : c.firstWindow ≤ c.largestWindow := Nat.le_max_right ..

theorem largestWindow_lt : c.largestWindow < 2 ^ 32 :=
  Nat.max_lt.2 ⟨c.windowMax.toNat_lt, Nat.max_lt.2 ⟨c.windowInitial.toNat_lt, by decide⟩⟩

end HybridConfig

/-- A heuristic keeps to settings. -/
structure Heuristic.KeepsTo (c : HybridConfig) (h : Heuristic) : Prop where
  /-- It samples at the rate of the settings. -/
  rate : h.samplingRate.toNat = c.rate
  /-- It begins with the first window. -/
  first : h.windowInitial.toNat = c.firstWindow
  /-- It does not exceed the largest window. -/
  largest : h.windowMax.toNat = c.largestWindow

namespace Heuristic

variable {c : HybridConfig} {h : Heuristic}

theorem keepsTo_new (c : HybridConfig) : (new c).KeepsTo c where
  rate := (UInt32.toNat_toUInt64 _).trans (UInt32.toNat_max ..)
  first := (UInt32.toNat_toUInt64 _).trans (UInt32.toNat_max ..)
  largest := by
    rw [new, UInt32.toNat_toUInt64, UInt32.toNat_max, UInt32.toNat_max]
    rfl

/-- No report changes the settings. -/
theorem KeepsTo.report (K : h.KeepsTo c) (r : CostReport) : (h.report r).2.KeepsTo c := by
  obtain ⟨rate, first, largest⟩ := K
  have sampled {h : Heuristic} (K : h.KeepsTo c) : h.takeSample.2.KeepsTo c := by
    unfold takeSample
    split
    · split
      · exact ⟨K.rate, K.first, K.largest⟩
      · exact K
    · exact K
  cases r with
  | hardwareCommit ticks => exact sampled ⟨rate, first, largest⟩
  | hardwareAbort ticks abort => exact sampled ⟨rate, first, largest⟩
  | softwareCommit ticks =>
    unfold Heuristic.report recordSoftwareCommit
    simp only
    split
    · exact ⟨rate, first, largest⟩
    · split <;> exact ⟨rate, first, largest⟩
  | epoch =>
    unfold Heuristic.report
    simp only
    split
    · next begun =>
      obtain ⟨estimate, -, rfl⟩ := exists_of_map_eq_ok begun
      exact ⟨rate, first, largest⟩
    · exact ⟨rate, first, largest⟩

end Heuristic

/-! ## Tallies -/

namespace CostHistory

variable (w : List CostEntry) (x : CostEntry)

/-- The regions that committed. -/
def commits : Nat := w.countP (·.report.isCommit)

/-- The regions that aborted. -/
def aborts : Nat := w.countP (·.report.isAbort)

/-- The regions that aborted themselves. -/
def explicitAborts : Nat := w.countP (·.report.isExplicitAbort)

/-- The ticks of all regions that committed. -/
def commitTicks : Nat := (w.map (·.report.commitTicks)).sum

/-- The ticks of all regions that aborted. -/
def abortTicks : Nat := (w.map (·.report.abortTicks)).sum

/-- The sample of the records of a window. -/
def sampleOf : HardwareSample where
  meanCost :=
    if commits w = 0 then infiniteCost
    else (UInt64.ofNat (commitTicks w + abortTicks w)).toFloat / (UInt64.ofNat (commits w)).toFloat
  explicitRate :=
    if commits w + aborts w = 0 then 0
    else (UInt64.ofNat (explicitAborts w)).toFloat * 100.0 /
      (UInt64.ofNat (commits w + aborts w)).toFloat

/-- The records after the last sample. -/
def sinceSample : List CostEntry := w.rtakeWhile (·.sample.isNone)

/-- The last sample. -/
def lastSample? : Option HardwareSample := w.reverse.findSome? (·.sample)

/-- The records that the estimate is computed from: those of the last sample, or before the first
one all records so far. -/
def estimated : List CostEntry :=
  let sampled := w.rdropWhile (·.sample.isNone)
  match sampled.getLast? with
  | some x => sinceSample sampled.dropLast ++ [x]
  | none => sinceSample w

/-- The capacity aborts in a row. -/
def capacityRun : Nat :=
  (w.rtakeWhile (!·.endsCapacityRun)).countP (·.report.isCapacityAbort)

/-- The ticks of a window can be added up: one of the sums is zero, or all of them fit into 64
bits. -/
def Fits : Prop := commitTicks w = 0 ∨ abortTicks w = 0 ∨ commitTicks w + abortTicks w < 2 ^ 64

variable {w x}

theorem commits_concat :
    commits (w ++ [x]) = commits w + if x.report.isCommit = true then 1 else 0 := countP_concat

theorem aborts_concat :
    aborts (w ++ [x]) = aborts w + if x.report.isAbort = true then 1 else 0 := countP_concat

theorem explicitAborts_concat : explicitAborts (w ++ [x]) =
    explicitAborts w + if x.report.isExplicitAbort = true then 1 else 0 := countP_concat

theorem commitTicks_concat : commitTicks (w ++ [x]) = commitTicks w + x.report.commitTicks :=
  sum_map_concat

theorem abortTicks_concat : abortTicks (w ++ [x]) = abortTicks w + x.report.abortTicks :=
  sum_map_concat

/-- If the ticks can be added up with another record, then also without it. -/
theorem Fits.of_concat (h : Fits (w ++ [x])) : Fits w := by
  rw [Fits, commitTicks_concat, abortTicks_concat] at h
  unfold Fits
  omega

theorem explicitAborts_le (w : List CostEntry) : explicitAborts w ≤ aborts w := by
  refine List.countP_mono_left fun x _ h => ?_
  obtain ⟨abort, habort, -⟩ := (Option.any_eq_true _ _).1 h
  rw [CostReport.isAbort, habort, Option.isSome_some]

theorem sinceSample_concat :
    sinceSample (w ++ [x]) = if x.sample.isNone = true then sinceSample w ++ [x] else [] :=
  List.rtakeWhile_concat ..

theorem lastSample?_concat : lastSample? (w ++ [x]) = x.sample.or (lastSample? w) :=
  findSome?_reverse_concat

/-- A sample with its window is estimated from until the next one. -/
theorem estimated_concat : estimated (w ++ [x]) =
    if x.sample = none ∧ lastSample? w ≠ none then estimated w else sinceSample w ++ [x] := by
  unfold estimated
  rw [List.rdropWhile_concat, sinceSample_concat]
  cases hsample : x.sample with
  | some sample => simp
  | none =>
    simp only [Option.isNone_none, if_true, true_and]
    -- Without a sample so far the window of the estimate grows; later it stays what it is.
    by_cases hlast : lastSample? w = none
    · have hnil : w.rdropWhile (·.sample.isNone) = [] := by
        refine List.rdropWhile_eq_nil_iff.2 fun y hy => ?_
        rw [List.findSome?_eq_none_iff.1 hlast y (List.mem_reverse.2 hy)]
        rfl
      rw [if_neg (not_not.2 hlast), hnil]
      rfl
    · have hne : w.rdropWhile (·.sample.isNone) ≠ [] := by
        refine fun hnil => hlast (List.findSome?_eq_none_iff.2 fun y hy => ?_)
        exact Option.isNone_iff_eq_none.1
          (List.rdropWhile_eq_nil_iff.1 hnil y (List.mem_reverse.1 hy))
      rw [if_pos hlast, List.getLast?_eq_some_getLast hne]

theorem capacityRun_concat : capacityRun (w ++ [x]) =
    if x.endsCapacityRun = true then 0
    else capacityRun w + if x.report.isCapacityAbort = true then 1 else 0 := by
  rw [capacityRun, countP_rtakeWhile_concat]
  cases x.endsCapacityRun <;> rfl

end CostHistory

open CostHistory

/-- A window accumulates what the records say, as far as 64 bits go. -/
structure SampleWindow.Tallies (t : SampleWindow) (w : List CostEntry) : Prop where
  /-- All committed regions are counted. -/
  commits : t.commits.toNat = CostHistory.commits w % 2 ^ 64
  /-- So are all aborted ones. -/
  aborts : t.aborts.toNat = CostHistory.aborts w % 2 ^ 64
  /-- And those that aborted themselves. -/
  explicitAborts : t.explicitAborts.toNat = CostHistory.explicitAborts w % 2 ^ 64
  /-- The ticks of committed regions are summed up, and the sum stops at the largest number. -/
  commitTicks : t.commitTicks.toNat = min (CostHistory.commitTicks w) (2 ^ 64 - 1)
  /-- So are those of aborted ones. -/
  abortTicks : t.abortTicks.toNat = min (CostHistory.abortTicks w) (2 ^ 64 - 1)

namespace SampleWindow

variable {t : SampleWindow} {w : List CostEntry} {x : CostEntry}

/-- The window with a record more. -/
def add (t : SampleWindow) : CostReport → SampleWindow
  | .hardwareCommit ticks => t.addCommit ticks
  | .hardwareAbort ticks abort => t.addAbort ticks abort
  | .softwareCommit _ | .epoch => t

theorem tallies_nil : ({} : SampleWindow).Tallies [] := ⟨rfl, rfl, rfl, rfl, rfl⟩

theorem toNat_succ {n : UInt64} {k : Nat} (h : n.toNat = k % 2 ^ 64) :
    (n + 1).toNat = (k + 1) % 2 ^ 64 := by
  rw [UInt64.toNat_add, h]
  exact Nat.mod_add_mod ..

theorem toNat_addSaturating_min {a b : UInt64} {n : Nat} (h : a.toNat = min n (2 ^ 64 - 1)) :
    (addSaturating a b).toNat = min (n + b.toNat) (2 ^ 64 - 1) := by
  rw [toNat_addSaturating, h]
  show min (min n (2 ^ 64 - 1) + b.toNat) (2 ^ 64 - 1) = _
  omega

namespace Tallies

/-- A record more is accumulated. -/
theorem add (T : t.Tallies w) : (t.add x.report).Tallies (w ++ [x]) := by
  obtain ⟨commits, aborts, explicitAborts, commitTicks, abortTicks⟩ := T
  obtain ⟨r, sample, verdict, overflow⟩ := x
  cases r with
  | hardwareCommit ticks =>
    constructor
    · rw [commits_concat]
      exact toNat_succ commits
    · rwa [aborts_concat]
    · rwa [explicitAborts_concat]
    · rw [commitTicks_concat]
      exact toNat_addSaturating_min commitTicks
    · rwa [abortTicks_concat]
  | hardwareAbort ticks abort =>
    constructor
    · rwa [commits_concat]
    · rw [aborts_concat]
      exact toNat_succ aborts
    · rw [explicitAborts_concat]
      show (if abort.explicitCode?.isSome = true then _ else _ : UInt64).toNat =
        (_ + if abort.explicitCode?.isSome = true then 1 else 0) % 2 ^ 64
      split
      · exact toNat_succ explicitAborts
      · exact explicitAborts
    · rwa [commitTicks_concat]
    · rw [abortTicks_concat]
      exact toNat_addSaturating_min abortTicks
  | softwareCommit | epoch =>
    constructor
    · rwa [commits_concat]
    · rwa [aborts_concat]
    · rwa [explicitAborts_concat]
    · rwa [commitTicks_concat]
    · rwa [abortTicks_concat]

/-- A window is complete when the commits or the aborts reach the rate. -/
theorem isComplete_iff (T : t.Tallies w) (commits_lt : CostHistory.commits w < 2 ^ 64)
    (aborts_lt : CostHistory.aborts w < 2 ^ 64) {rate : UInt64} : t.isComplete rate = true ↔
      rate.toNat ≤ CostHistory.commits w ∨ rate.toNat ≤ CostHistory.aborts w := by
  rw [SampleWindow.isComplete, Bool.or_eq_true, decide_eq_true_iff, decide_eq_true_iff,
    UInt64.le_iff_toNat_le, UInt64.le_iff_toNat_le, T.commits, T.aborts,
    Nat.mod_eq_of_lt commits_lt, Nat.mod_eq_of_lt aborts_lt]

/-! ## Samples -/

/-- The sums can be added just when the ticks can. -/
theorem add_lt_iff (T : t.Tallies w) :
    t.commitTicks.toNat + t.abortTicks.toNat < UInt64.size ↔ Fits w := by
  rw [T.commitTicks, T.abortTicks, Fits]
  show _ < 2 ^ 64 ↔ _
  omega

/-- If the ticks can be added up there is a sample. -/
theorem exists_toSample (T : t.Tallies w) (fits : Fits w) : ∃ sample, t.toSample = .ok sample :=
  SampleWindow.exists_toSample (T.add_lt_iff.2 fits)

/-- The sample of a window, if its ticks fit into 64 bits. -/
theorem toSample_eq (T : t.Tallies w) (commits_lt : CostHistory.commits w < 2 ^ 63)
    (aborts_lt : CostHistory.aborts w < 2 ^ 63)
    (fits : CostHistory.commitTicks w + CostHistory.abortTicks w < 2 ^ 64) :
    t.toSample = .ok (sampleOf w) := by
  have hsum := addChecked_of_lt (T.add_lt_iff.2 (Or.inr (Or.inr fits)))
  have explicit_le := explicitAborts_le w
  obtain ⟨commits, aborts, explicitAborts, commitTicks, abortTicks⟩ := T
  rw [min_eq_left (by omega)] at commitTicks abortTicks
  rw [Nat.mod_eq_of_lt (by omega)] at commits aborts explicitAborts
  have hattempts : (t.commits + t.aborts).toNat = CostHistory.commits w + CostHistory.aborts w := by
    rw [UInt64.toNat_add, commits, aborts]
    exact Nat.mod_eq_of_lt (by omega)
  have eq_zero_iff (n : UInt64) : n = 0 ↔ n.toNat = 0 := UInt64.toNat_inj.symm
  rw [toSample, meanCost, hsum, sampleOf, explicitRate, ← hattempts, ← commits, ← explicitAborts,
    ← commitTicks, ← abortTicks, UInt64.ofNat_add]
  simp only [eq_zero_iff, UInt64.ofNat_toNat]
  by_cases hzero : t.commits.toNat = 0
  · rw [if_pos hzero, if_pos hzero]
    rfl
  · rw [if_neg hzero, if_neg hzero]
    rfl

end Tallies

end SampleWindow

/-- What comes of a window of records: a sample or an overflow. If its ticks can be added up there
are no more records than complete it. -/
structure CostHistory.IsOutcome (c : HybridConfig) (w : List CostEntry)
    (outcome : Except Overflow HardwareSample) : Prop where
  /-- It is computed from what the window accumulates. -/
  tally : ∃ t : SampleWindow, t.Tallies w ∧ outcome = t.toSample
  /-- The commits are not more than complete a window. -/
  commits_le : Fits w → commits w ≤ c.rate
  /-- Nor are the aborts. -/
  aborts_le : Fits w → aborts w ≤ c.rate

/-- If the ticks fit into 64 bits, it is the sample of the window. -/
theorem CostHistory.IsOutcome.eq {c : HybridConfig} {w : List CostEntry}
    {outcome : Except Overflow HardwareSample} (O : IsOutcome c w outcome)
    (fits : commitTicks w + abortTicks w < 2 ^ 64) : outcome = .ok (sampleOf w) := by
  obtain ⟨⟨t, T, rfl⟩, commits_le, aborts_le⟩ := O
  have commits_le := commits_le (Or.inr (Or.inr fits))
  have aborts_le := aborts_le (Or.inr (Or.inr fits))
  have rate_lt := c.rate_lt
  exact T.toSample_eq (by omega) (by omega) fits

namespace Heuristic

/-- The capacity aborts in a row with an entry more. -/
def nextRun (h : Heuristic) (x : CostEntry) : UInt32 :=
  if x.endsCapacityRun then 0
  else if x.report.isCapacityAbort then h.capacityRun + 1
  else h.capacityRun

theorem capacityRun_takeSample (h : Heuristic) : h.takeSample.2.capacityRun = h.capacityRun := by
  unfold takeSample
  split
  · split <;> rfl
  · rfl

theorem capacityRun_report (h : Heuristic) (r : CostReport) :
    (h.report r).2.capacityRun = h.nextRun (h.report r).1 := by
  cases r with
  | hardwareCommit ticks =>
    have ends : (h.report (.hardwareCommit ticks)).1.endsCapacityRun = true := by
      rw [CostEntry.endsCapacityRun, report_report]
      simp [CostReport.isCommit]
    rw [nextRun, if_pos ends]
    exact capacityRun_takeSample _
  | hardwareAbort ticks abort =>
    have ends : (h.report (.hardwareAbort ticks abort)).1.endsCapacityRun = !abort.isCapacity := by
      rw [CostEntry.endsCapacityRun, CostEntry.beginsEpoch, report_report]
      rfl
    rw [nextRun, ends, report_report]
    refine (capacityRun_takeSample _).trans ?_
    show (if abort.isCapacity = true then _ else _) =
      if (!abort.isCapacity) = true then _ else if abort.isCapacity = true then _ else _
    cases abort.isCapacity <;> rfl
  | softwareCommit ticks =>
    unfold report recordSoftwareCommit
    simp only
    split
    · rfl
    · split <;> rfl
  | epoch =>
    unfold report
    simp only
    split
    · next begun =>
      obtain ⟨estimate, -, rfl⟩ := exists_of_map_eq_ok begun
      rfl
    · rfl

/-- What a report does to samples. -/
inductive Takes (h : Heuristic) (r : CostReport) : CostEntry → Heuristic → Prop
  /-- No region completes the window. -/
  | none {x : CostEntry} {h' : Heuristic} (silent : x.sample = none)
      (answered : r.isHardware = true → x.overflow = none)
      (incomplete : r.isHardware = true → (h.hardware.add r).isComplete h.samplingRate = false)
      (hardware : h'.hardware = h.hardware.add r) (sample : h'.sample = h.sample) : Takes h r x h'
  /-- The sample that its record completes is taken, and a new window begins. -/
  | some {x : CostEntry} {h' : Heuristic} {s : HardwareSample} (taken : x.sample = some s)
      (answered : x.overflow = none)
      (complete : (h.hardware.add r).isComplete h.samplingRate = true)
      (computed : (h.hardware.add r).toSample = .ok s)
      (hardware : h'.hardware = {}) (sample : h'.sample = some s) : Takes h r x h'
  /-- There would be a sample, but it overflows. -/
  | overflow {x : CostEntry} {h' : Heuristic} {overflow : Overflow} (silent : x.sample = none)
      (raised : x.overflow = some overflow)
      (complete : (h.hardware.add r).isComplete h.samplingRate = true)
      (computed : (h.hardware.add r).toSample = .error overflow)
      (hardware : h'.hardware = h.hardware.add r) (sample : h'.sample = h.sample) : Takes h r x h'

/-- Every report does this. -/
theorem takes_report (h : Heuristic) (r : CostReport) :
    h.Takes r (h.report r).1 (h.report r).2 := by
  have sampled {h' : Heuristic} {r : CostReport} (hardware : h'.hardware = h.hardware.add r)
      (rate : h'.samplingRate = h.samplingRate) (sample : h'.sample = h.sample) :
      h.Takes r (.ofRecord r h'.takeSample.1) h'.takeSample.2 := by
    unfold takeSample
    rw [rate, hardware]
    split
    · next complete =>
      split
      · next computed => exact .some rfl rfl complete computed rfl rfl
      · next computed => exact .overflow rfl rfl complete computed hardware sample
    · next incomplete =>
      exact .none rfl (fun _ => rfl) (fun _ => Bool.not_eq_true _ ▸ incomplete) hardware sample
  -- Only reports of hardware look whether the window is complete.
  cases r with
  | hardwareCommit ticks => exact sampled rfl rfl rfl
  | hardwareAbort ticks abort => exact sampled rfl rfl rfl
  | softwareCommit ticks =>
    unfold report recordSoftwareCommit
    simp only
    split
    · exact .none rfl nofun nofun rfl rfl
    · split <;> exact .none rfl nofun nofun rfl rfl
  | epoch =>
    unfold report
    simp only
    split
    · next begun =>
      obtain ⟨estimate, -, rfl⟩ := exists_of_map_eq_ok begun
      exact .none rfl nofun nofun rfl rfl
    · exact .none rfl nofun nofun rfl rfl

end Heuristic

namespace CostHistory

variable {c : HybridConfig} {H : CostHistory}

/-- The hardware side of a heuristic is what its history says. -/
structure Recorded (c : HybridConfig) (H : CostHistory) : Prop where
  /-- The settings are kept to. -/
  keeps : H.heuristic.KeepsTo c
  /-- The window accumulates the records since the last sample. -/
  tally : H.heuristic.hardware.Tallies (sinceSample H.entries)
  /-- If their ticks can be added up, their commits do not complete it. -/
  commits_lt : Fits (sinceSample H.entries) → commits (sinceSample H.entries) < c.rate
  /-- Nor do their aborts. -/
  aborts_lt : Fits (sinceSample H.entries) → aborts (sinceSample H.entries) < c.rate
  /-- The last sample is kept. -/
  sample : H.heuristic.sample = lastSample? H.entries
  /-- The estimate is what comes of its window. -/
  estimate : IsOutcome c (estimated H.entries) H.heuristic.estimate
  /-- Capacity aborts in a row are counted, as far as 32 bits go. -/
  run : H.heuristic.capacityRun.toNat = capacityRun H.entries % 2 ^ 32

namespace Recorded

theorem init (c : HybridConfig) : Recorded c (init c) where
  keeps := Heuristic.keepsTo_new c
  tally := SampleWindow.tallies_nil
  commits_lt _ := c.rate_pos
  aborts_lt _ := c.rate_pos
  sample := rfl
  estimate := ⟨⟨{}, SampleWindow.tallies_nil, rfl⟩, fun _ => c.rate_pos.le, fun _ => c.rate_pos.le⟩
  run := rfl

/-- The records with the next one are accumulated. -/
theorem tally_add (R : Recorded c H) (r : CostReport) :
    (H.heuristic.hardware.add r).Tallies (sinceSample H.entries ++ [H.answer r]) := by
  have T := R.tally.add (x := H.answer r)
  rwa [answer, Heuristic.report_report] at T

/-- With the next record the commits and the aborts reach the rate at most. -/
theorem counts_add_le (R : Recorded c H) {r : CostReport}
    (fits : Fits (sinceSample H.entries ++ [H.answer r])) :
    commits (sinceSample H.entries ++ [H.answer r]) ≤ c.rate ∧
      aborts (sinceSample H.entries ++ [H.answer r]) ≤ c.rate := by
  have commits_lt := R.commits_lt fits.of_concat
  have aborts_lt := R.aborts_lt fits.of_concat
  rw [commits_concat, aborts_concat]
  constructor <;> split <;> omega

/-- The next record completes the window when with it the commits or the aborts reach the rate. -/
theorem isComplete_add_iff (R : Recorded c H) {r : CostReport}
    (fits : Fits (sinceSample H.entries ++ [H.answer r])) :
    (H.heuristic.hardware.add r).isComplete H.heuristic.samplingRate = true ↔
      commits (sinceSample H.entries ++ [H.answer r]) = c.rate ∨
        aborts (sinceSample H.entries ++ [H.answer r]) = c.rate := by
  obtain ⟨commits_le, aborts_le⟩ := R.counts_add_le fits
  have rate_lt := c.rate_lt
  rw [(R.tally_add r).isComplete_iff (by omega) (by omega), R.keeps.rate]
  omega

theorem isOutcome_add (R : Recorded c H) (r : CostReport) :
    IsOutcome c (sinceSample H.entries ++ [H.answer r]) (H.heuristic.hardware.add r).toSample where
  tally := ⟨_, R.tally_add r, rfl⟩
  commits_le fits := (R.counts_add_le fits).1
  aborts_le fits := (R.counts_add_le fits).2

theorem takes (H : CostHistory) (r : CostReport) :
    H.heuristic.Takes r (H.answer r) (H.add r).heuristic := H.heuristic.takes_report r

/-- Capacity aborts in a row are counted. -/
theorem run_add (R : Recorded c H) (r : CostReport) :
    (H.add r).heuristic.capacityRun.toNat = capacityRun (H.add r).entries % 2 ^ 32 := by
  have hrun := R.run
  show (H.heuristic.report r).2.capacityRun.toNat = capacityRun (H.entries ++ [H.answer r]) % 2 ^ 32
  rw [Heuristic.capacityRun_report, capacityRun_concat, ← answer, Heuristic.nextRun]
  split
  · rfl
  · split
    · -- A run of `2 ^ 32` capacity aborts counts as none.
      rw [UInt32.toNat_add, UInt32.toNat_one, hrun]
      omega
    · exact hrun

/-- The estimate goes on to the next sample. -/
theorem estimate_add (R : Recorded c H) (r : CostReport) :
    IsOutcome c (estimated (H.add r).entries) (H.add r).heuristic.estimate := by
  have hestimated : estimated (H.add r).entries =
      if (H.answer r).sample = none ∧ lastSample? H.entries ≠ none then estimated H.entries
      else sinceSample H.entries ++ [H.answer r] := estimated_concat
  -- Without a sample the last one stays, or the window goes on in which there was none so far.
  have onwards (silent : (H.answer r).sample = none)
      (hardware : (H.add r).heuristic.hardware = H.heuristic.hardware.add r)
      (sample : (H.add r).heuristic.sample = H.heuristic.sample) :
      IsOutcome c (estimated (H.add r).entries) (H.add r).heuristic.estimate := by
    rw [hestimated, Heuristic.estimate, sample, hardware, R.sample]
    cases hlast : lastSample? H.entries with
    | none =>
      rw [if_neg fun h => h.2 rfl]
      exact R.isOutcome_add r
    | some last =>
      have O := R.estimate
      rw [Heuristic.estimate, R.sample, hlast] at O
      rw [if_pos ⟨silent, nofun⟩]
      exact O
  cases takes H r with
  | none silent answered incomplete hardware sample => exact onwards silent hardware sample
  | overflow silent raised complete computed hardware sample => exact onwards silent hardware sample
  | some taken answered complete computed hardware sample =>
    have O := R.isOutcome_add r
    rw [computed] at O
    rw [hestimated, Heuristic.estimate, sample, taken, if_neg fun h => Option.some_ne_none _ h.1]
    exact O

/-- Without a sample the window goes on. If its ticks can be added up, it stays below the rate. -/
theorem add_of_silent (R : Recorded c H) {r : CostReport} (silent : (H.answer r).sample = none)
    (hardware : (H.add r).heuristic.hardware = H.heuristic.hardware.add r)
    (sample : (H.add r).heuristic.sample = H.heuristic.sample)
    (below : Fits (sinceSample H.entries ++ [H.answer r]) →
      commits (sinceSample H.entries ++ [H.answer r]) < c.rate ∧
        aborts (sinceSample H.entries ++ [H.answer r]) < c.rate) : Recorded c (H.add r) := by
  have hlast : lastSample? (H.add r).entries = (H.answer r).sample.or (lastSample? H.entries) :=
    lastSample?_concat
  have hsince : sinceSample (H.add r).entries = sinceSample H.entries ++ [H.answer r] := by
    rw [CostHistory.add, sinceSample_concat, silent, Option.isNone_none, if_pos rfl]
  refine ⟨R.keeps.report r, ?_, ?_, ?_, ?_, R.estimate_add r, R.run_add r⟩
  · rw [hardware, hsince]
    exact R.tally_add r
  · rw [hsince]
    exact fun fits => (below fits).1
  · rw [hsince]
    exact fun fits => (below fits).2
  · rw [sample, hlast, silent, R.sample]
    rfl

/-- With a sample a new window begins. -/
theorem add_of_taken (R : Recorded c H) {r : CostReport} {s : HardwareSample}
    (taken : (H.answer r).sample = some s) (hardware : (H.add r).heuristic.hardware = {})
    (sample : (H.add r).heuristic.sample = some s) : Recorded c (H.add r) := by
  have hlast : lastSample? (H.add r).entries = (H.answer r).sample.or (lastSample? H.entries) :=
    lastSample?_concat
  have hsince : sinceSample (H.add r).entries = [] := by
    rw [CostHistory.add, sinceSample_concat, taken, Option.isNone_some, if_neg Bool.false_ne_true]
  refine ⟨R.keeps.report r, ?_, ?_, ?_, ?_, R.estimate_add r, R.run_add r⟩
  · rw [hardware, hsince]
    exact SampleWindow.tallies_nil
  · rw [hsince]
    exact fun _ => c.rate_pos
  · rw [hsince]
    exact fun _ => c.rate_pos
  · rw [sample, hlast, taken]
    rfl

/-- Every report keeps it. -/
theorem add (R : Recorded c H) (r : CostReport) : Recorded c (H.add r) := by
  cases takes H r with
  | none silent answered incomplete hardware sample =>
    refine R.add_of_silent silent hardware sample fun fits => ?_
    obtain ⟨commits_le, aborts_le⟩ := R.counts_add_le fits
    cases hr : r.isHardware with
    | true =>
      have hopen := not_or.1 (mt (R.isComplete_add_iff fits).2
        (ne_true_of_eq_false (incomplete hr)))
      exact ⟨commits_le.lt_of_ne hopen.1, aborts_le.lt_of_ne hopen.2⟩
    | false =>
      -- Other records are no part of a window.
      have hreport : (H.answer r).report = r := Heuristic.report_report ..
      obtain ⟨hcommit, habort⟩ := Bool.or_eq_false_iff.1 hr
      rw [commits_concat, aborts_concat, hreport, hcommit, habort]
      exact ⟨R.commits_lt fits.of_concat, R.aborts_lt fits.of_concat⟩
  | overflow silent raised complete computed hardware sample =>
    refine R.add_of_silent silent hardware sample fun fits => ?_
    obtain ⟨s, hs⟩ := (R.tally_add r).exists_toSample fits
    rw [computed] at hs
    cases hs
  | some taken answered complete computed hardware sample =>
    exact R.add_of_taken taken hardware sample

end Recorded

theorem recorded_of (c : HybridConfig) (reports : List CostReport) : Recorded c (of c reports) :=
  of_induction (Recorded.init c) (fun _ r R => R.add r) reports

end CostHistory

namespace CostHistory

variable {c : HybridConfig} {H : CostHistory}

/-- What a heuristic makes of what is reported of hardware. -/
structure Sampled (c : HybridConfig) (H : CostHistory) : Prop where
  /-- Counts and tick sums are those of the records since the last sample. -/
  tally : H.heuristic.hardware.Tallies (sinceSample H.entries)
  /-- If the ticks can be added up, the counts are exact. -/
  counts : Fits (sinceSample H.entries) →
    H.heuristic.hardware.commits.toNat = commits (sinceSample H.entries) ∧
      H.heuristic.hardware.aborts.toNat = aborts (sinceSample H.entries) ∧
      H.heuristic.hardware.explicitAborts.toNat = explicitAborts (sinceSample H.entries)
  /-- A sum that fits into 64 bits is exact. -/
  commitTicks : commitTicks (sinceSample H.entries) < 2 ^ 64 →
    H.heuristic.hardware.commitTicks.toNat = CostHistory.commitTicks (sinceSample H.entries)
  /-- So is that of the aborts. -/
  abortTicks : abortTicks (sinceSample H.entries) < 2 ^ 64 →
    H.heuristic.hardware.abortTicks.toNat = CostHistory.abortTicks (sinceSample H.entries)
  /-- No more regions have aborted themselves than have aborted. -/
  explicitAborts_le : Fits (sinceSample H.entries) →
    H.heuristic.hardware.explicitAborts ≤ H.heuristic.hardware.aborts
  /-- Commits and aborts stay below the rate. -/
  counts_lt : Fits (sinceSample H.entries) →
    H.heuristic.hardware.commits.toNat < c.rate ∧ H.heuristic.hardware.aborts.toNat < c.rate
  /-- The next report is answered with a sample when with it one of them reaches the rate. -/
  sampled_iff : ∀ r, Fits (sinceSample H.entries ++ [H.answer r]) →
    ((H.answer r).sample.isSome = true ↔
      commits (sinceSample H.entries ++ [H.answer r]) = c.rate ∨
        aborts (sinceSample H.entries ++ [H.answer r]) = c.rate)
  /-- No report of a region overflows. -/
  answered : ∀ r, r.isHardware = true → Fits (sinceSample H.entries ++ [H.answer r]) →
    (H.answer r).overflow = none
  /-- The sample is computed from what the records of its own window accumulate. -/
  computed : ∀ r sample, (H.answer r).sample = some sample →
    IsOutcome c (sinceSample H.entries ++ [H.answer r]) (.ok sample)
  /-- If their ticks fit into 64 bits, it is the sample of these records. -/
  exact : ∀ r sample, (H.answer r).sample = some sample →
    CostHistory.commitTicks (sinceSample H.entries ++ [H.answer r]) +
      CostHistory.abortTicks (sinceSample H.entries ++ [H.answer r]) < 2 ^ 64 →
    sample = sampleOf (sinceSample H.entries ++ [H.answer r])
  /-- The last sample is kept. -/
  kept : H.heuristic.sample = lastSample? H.entries
  /-- It is the estimate, and before the first one what the records so far accumulate. -/
  estimate : CostHistory.commitTicks (estimated H.entries) +
      CostHistory.abortTicks (estimated H.entries) < 2 ^ 64 →
    H.heuristic.estimate = .ok (sampleOf (estimated H.entries))
  /-- Capacity aborts in a row are counted. -/
  run : capacityRun H.entries < 2 ^ 32 → H.heuristic.capacityRun.toNat = capacityRun H.entries

namespace Recorded

theorem counts (R : Recorded c H) (fits : Fits (sinceSample H.entries)) :
    H.heuristic.hardware.commits.toNat = commits (sinceSample H.entries) ∧
      H.heuristic.hardware.aborts.toNat = aborts (sinceSample H.entries) ∧
      H.heuristic.hardware.explicitAborts.toNat = explicitAborts (sinceSample H.entries) := by
  have commits_lt := R.commits_lt fits
  have aborts_lt := R.aborts_lt fits
  have explicit_le := explicitAborts_le (sinceSample H.entries)
  have rate_lt := c.rate_lt
  refine ⟨R.tally.commits.trans (Nat.mod_eq_of_lt ?_),
    R.tally.aborts.trans (Nat.mod_eq_of_lt ?_),
    R.tally.explicitAborts.trans (Nat.mod_eq_of_lt ?_)⟩ <;> omega

/-- A sample is what comes of its window. -/
theorem isOutcome_of_sample (R : Recorded c H) {r : CostReport} {s : HardwareSample}
    (h : (H.answer r).sample = some s) :
    IsOutcome c (sinceSample H.entries ++ [H.answer r]) (.ok s) := by
  have O := R.isOutcome_add r
  cases takes H r with
  | none silent => rw [silent] at h; cases h
  | overflow silent => rw [silent] at h; cases h
  | some taken answered complete computed hardware sample =>
    rw [h] at taken
    rwa [computed, ← Option.some.inj taken] at O

/-- So is an overflow of a record. -/
theorem isOutcome_of_overflow (R : Recorded c H) {r : CostReport} {overflow : Overflow}
    (hardware : r.isHardware = true) (h : (H.answer r).overflow = some overflow) :
    IsOutcome c (sinceSample H.entries ++ [H.answer r]) (.error overflow) := by
  have O := R.isOutcome_add r
  cases takes H r with
  | none silent answered => rw [answered hardware] at h; cases h
  | some taken answered => rw [answered] at h; cases h
  | overflow silent raised complete computed =>
    rw [h] at raised
    rwa [computed, ← Option.some.inj raised] at O

/-- If the ticks can be added up, a record is answered, with a sample if it completes the window. -/
theorem answered (R : Recorded c H) {r : CostReport}
    (fits : Fits (sinceSample H.entries ++ [H.answer r])) :
    (r.isHardware = true → (H.answer r).overflow = none) ∧
      ((H.answer r).sample.isSome = true ↔
        commits (sinceSample H.entries ++ [H.answer r]) = c.rate ∨
          aborts (sinceSample H.entries ++ [H.answer r]) = c.rate) := by
  have hcomplete := R.isComplete_add_iff fits
  have A := R.add r
  cases takes H r with
  | none silent answered incomplete hardware sample =>
    have hsince : sinceSample (H.add r).entries = sinceSample H.entries ++ [H.answer r] := by
      rw [CostHistory.add, sinceSample_concat, silent, Option.isNone_none, if_pos rfl]
    have commits_lt := A.commits_lt
    have aborts_lt := A.aborts_lt
    rw [hsince] at commits_lt aborts_lt
    refine ⟨answered, ?_⟩
    rw [silent]
    exact iff_of_false nofun fun h =>
      h.elim (commits_lt fits).ne (aborts_lt fits).ne
  | overflow silent raised complete computed =>
    obtain ⟨s, hs⟩ := (R.tally_add r).exists_toSample fits
    rw [computed] at hs
    cases hs
  | some taken answered complete =>
    refine ⟨fun _ => answered, ?_⟩
    rw [taken, ← hcomplete, complete]
    exact iff_of_true rfl rfl

theorem sampled (R : Recorded c H) : Sampled c H where
  tally := R.tally
  counts := R.counts
  commitTicks fits := R.tally.commitTicks.trans (min_eq_left (Nat.le_pred_of_lt fits))
  abortTicks fits := R.tally.abortTicks.trans (min_eq_left (Nat.le_pred_of_lt fits))
  explicitAborts_le fits := by
    obtain ⟨-, haborts, hexplicit⟩ := R.counts fits
    rw [UInt64.le_iff_toNat_le, hexplicit, haborts]
    exact explicitAborts_le _
  counts_lt fits := by
    obtain ⟨hcommits, haborts, -⟩ := R.counts fits
    rw [hcommits, haborts]
    exact ⟨R.commits_lt fits, R.aborts_lt fits⟩
  sampled_iff _ fits := (R.answered fits).2
  answered _ hardware fits := (R.answered fits).1 hardware
  computed _ _ h := R.isOutcome_of_sample h
  exact _ _ h fits := Except.ok.inj ((R.isOutcome_of_sample h).eq fits)
  kept := R.sample
  estimate fits := R.estimate.eq fits
  run small := R.run.trans (Nat.mod_eq_of_lt small)

end Recorded

/-- After any reports, under any settings. -/
theorem sampled_of (c : HybridConfig) (reports : List CostReport) : Sampled c (of c reports) :=
  (recorded_of c reports).sampled

/-- Four commits complete a sample, and the fifth one is the first of the next. -/
example :
    let commits := [10, 10, 10, 50, 30].map CostReport.hardwareCommit
    let H := of { samplingRate := 4 } commits
    H.entries.map (·.sample.map (·.meanCost)) = [none, none, none, some 20, none] ∧
      H.heuristic.estimate.toOption.map (·.meanCost) = some 20 ∧
      H.heuristic.hardware.commits = 1 := by
  decide +kernel

end CostHistory

end HybridTM
