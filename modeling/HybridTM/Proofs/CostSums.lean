import HybridTM.Proofs.CostHistory
import HybridTM.Proofs.FloatQuotients

/-!
# Sums of hardware costs

The mean cost of a window is the ticks of its commits and its aborts by its commits. Either of the
two sums stops at the largest 64-bit number; their own sum does not, it is added up as it is and
overflows where it is too large for 64 bits. If all ticks together fit into 64 bits or one of the
sums is zero (`Fits`) then there is a mean cost, and the sum in it is what one would expect, the
largest number or less (`summed`). Otherwise there is none (`CostLaw.overflows`): one tick more can
turn the largest mean into a panic.

A mean cost that there is does not fall with more ticks: it is not smaller than that of any other
window with as many commits and no more ticks (`CostLaw.rises`), whenever an estimate or a sample is
computed from them, under any settings and after any reports.
-/

set_option autoImplicit false

namespace HybridTM

namespace CostHistory

variable (w : List CostEntry)

/-- The ticks of a window, as far as 64 bits go. -/
def summed : Nat := min (commitTicks w + abortTicks w) (2 ^ 64 - 1)

/-- The mean cost of a window. -/
def costOf : Float :=
  if commits w = 0 then infiniteCost
  else (UInt64.ofNat (summed w)).toFloat / (UInt64.ofNat (commits w)).toFloat

/-- A window has as many commits as another one and no fewer ticks. -/
structure Outweighs (w' w : List CostEntry) : Prop where
  /-- The commits are as many. -/
  commits : commits w' = commits w
  /-- The ticks are no fewer. -/
  ticks : commitTicks w + abortTicks w ≤ commitTicks w' + abortTicks w'

variable {w}

/-! ## Numerators -/

/-- Ticks that can be added up do so to their sum, which stops at the largest number. -/
theorem add_eq_summed_of_fits (h : Fits w) :
    min (commitTicks w) (2 ^ 64 - 1) + min (abortTicks w) (2 ^ 64 - 1) = summed w := by
  unfold summed
  rcases h with h | h | h <;> omega

/-- The two sums have one that fits into 64 bits just when the ticks can be added up. -/
theorem add_lt_iff_fits (w : List CostEntry) :
    min (commitTicks w) (2 ^ 64 - 1) + min (abortTicks w) (2 ^ 64 - 1) < 2 ^ 64 ↔ Fits w := by
  unfold Fits
  omega

theorem Outweighs.summed_le {w' : List CostEntry} (h : Outweighs w' w) : summed w ≤ summed w' :=
  min_le_min_right _ h.ticks

/-- Where nothing committed, no ticks did. -/
theorem commits_ne_zero (h : commitTicks w ≠ 0) : commits w ≠ 0 := by
  refine fun hzero => h (List.sum_eq_zero_iff_forall_eq_nat.2 fun n hn => ?_)
  obtain ⟨x, hx, rfl⟩ := List.mem_map.1 hn
  have := List.countP_eq_zero.1 hzero x hx
  obtain ⟨r, sample, verdict, overflow⟩ := x
  cases r with
  | hardwareCommit ticks => exact absurd rfl this
  | _ => rfl

theorem ofNat_ne_zero {n : Nat} (h : n ≠ 0) (small : n < 2 ^ 64) : UInt64.ofNat n ≠ 0 := by
  intro hzero
  rw [← UInt64.toNat_inj, UInt64.toNat_ofNat_of_lt' small] at hzero
  exact h hzero

end CostHistory

open CostHistory

/-! ## Mean costs -/

theorem SampleWindow.toSample_map_meanCost (t : SampleWindow) :
    t.toSample.map (·.meanCost) = t.meanCost := by
  rw [toSample]
  cases t.meanCost <;> rfl

namespace SampleWindow.Tallies

variable {t t' : SampleWindow} {w w' : List CostEntry} {mean mean' : Float}

/-- A mean cost is computed from the ticks, if they can be added up. -/
theorem meanCost_of_fits (T : t.Tallies w) (hpos : t.commits ≠ 0) (fits : Fits w) :
    t.meanCost = .ok ((UInt64.ofNat (summed w)).toFloat / t.commits.toFloat) := by
  have hsum : t.commitTicks + t.abortTicks = .ofNat (summed w) := by
    rw [← add_eq_summed_of_fits fits, ← T.commitTicks, ← T.abortTicks, UInt64.ofNat_add,
      UInt64.ofNat_toNat, UInt64.ofNat_toNat]
  rw [meanCost, if_neg hpos, addChecked_of_lt (T.add_lt_iff.2 fits), hsum]
  rfl

/-- If not, there is an overflow. -/
theorem meanCost_of_not_fits (T : t.Tallies w) (hpos : t.commits ≠ 0) (h : ¬ Fits w) :
    t.meanCost = .error .add := by
  rw [meanCost, if_neg hpos, addChecked_of_le (Nat.not_lt.1 (mt T.add_lt_iff.1 h))]
  rfl

/-- So where commits are counted, a mean cost shows that the ticks could be added up. -/
theorem fits_of_meanCost (T : t.Tallies w) (hpos : t.commits ≠ 0) (h : t.meanCost = .ok mean) :
    Fits w := by
  by_contra hfits
  rw [T.meanCost_of_not_fits hpos hfits] at h
  cases h

/-- The mean cost of a window, if its ticks can be added up. -/
theorem meanCost_eq (T : t.Tallies w) (small : CostHistory.commits w < 2 ^ 64) (fits : Fits w) :
    t.meanCost = .ok (costOf w) := by
  have hcommits := T.commits
  rw [Nat.mod_eq_of_lt small] at hcommits
  by_cases hzero : t.commits = 0
  · rw [hzero] at hcommits
    have hnone : CostHistory.commits w = 0 := hcommits.symm
    rw [meanCost, if_pos hzero, costOf, if_pos hnone]
  · have hne : CostHistory.commits w ≠ 0 := fun h =>
      hzero (UInt64.toNat_inj.1 (hcommits.trans h))
    rw [T.meanCost_of_fits hzero fits, costOf, if_neg hne, ← hcommits, UInt64.ofNat_toNat]

/-- Fewer commits than `2 ^ 64` are counted, and there are some if the ticks do not fit. -/
theorem commits_ne_zero (T : t.Tallies w) (small : CostHistory.commits w < 2 ^ 64)
    (h : ¬ Fits w) : t.commits ≠ 0 := by
  intro hzero
  have hcommits := T.commits
  rw [hzero, Nat.mod_eq_of_lt small] at hcommits
  exact CostHistory.commits_ne_zero (fun hticks => h (Or.inl hticks)) hcommits.symm

/-- A heavier window does not have a smaller mean cost, if it has one. -/
theorem meanCost_le (T : t.Tallies w) (T' : t'.Tallies w') (heavier : Outweighs w' w)
    (h : t.meanCost = .ok mean) (h' : t'.meanCost = .ok mean') : mean ≤ mean' := by
  have hcommits : t'.commits = t.commits := by
    rw [← UInt64.toNat_inj, T.commits, T'.commits, heavier.commits]
  by_cases hzero : t.commits = 0
  · -- The counter may be back at zero: then neither window has a known cost.
    rw [meanCost, if_pos hzero] at h
    rw [meanCost, if_pos (hcommits.trans hzero)] at h'
    rw [← Except.ok.inj h, ← Except.ok.inj h']
    decide +kernel
  · have hpos' : t'.commits ≠ 0 := fun h => hzero (hcommits.symm.trans h)
    rw [T.meanCost_of_fits hzero (T.fits_of_meanCost hzero h)] at h
    rw [T'.meanCost_of_fits hpos' (T'.fits_of_meanCost hpos' h'), hcommits] at h'
    rw [← Except.ok.inj h, ← Except.ok.inj h']
    have hle := heavier.summed_le
    have small (w : List CostEntry) : (UInt64.ofNat (summed w)).toNat = summed w :=
      UInt64.toNat_ofNat_of_lt' (lt_of_le_of_lt (min_le_right ..) (by decide))
    refine Binary64.div_le_div ?_ hzero
    rwa [small, small]

end SampleWindow.Tallies

namespace CostHistory

variable {c : HybridConfig}

/-! ## Estimates and samples -/

/-- A mean cost is computed from a window, at some time of some run, or an overflow is what comes
of it. -/
inductive Computes (c : HybridConfig) : List CostEntry → Except Overflow Float → Prop
  /-- An estimate has the mean cost of its window. -/
  | estimate (reports : List CostReport) : Computes c (estimated (of c reports).entries)
      ((of c reports).heuristic.estimate.map (·.meanCost))
  /-- So has a sample. -/
  | sample (reports : List CostReport) (r : CostReport) {sample : HardwareSample}
      (taken : ((of c reports).answer r).sample = some sample) :
      Computes c (sinceSample (of c reports).entries ++ [(of c reports).answer r])
        (.ok sample.meanCost)
  /-- A record that completes its window can overflow instead. -/
  | overflow (reports : List CostReport) (r : CostReport) {overflow : Overflow}
      (hardware : r.isHardware = true)
      (raised : ((of c reports).answer r).overflow = some overflow) :
      Computes c (sinceSample (of c reports).entries ++ [(of c reports).answer r])
        (.error overflow)

/-- Whatever is computed from a window is computed from what it accumulates. -/
theorem Computes.exists_tally {w : List CostEntry} {outcome : Except Overflow Float}
    (h : Computes c w outcome) : ∃ t : SampleWindow,
      t.Tallies w ∧ outcome = t.meanCost ∧ (Fits w → commits w ≤ c.rate) := by
  cases h with
  | estimate reports =>
    obtain ⟨⟨t, T, houtcome⟩, commits_le, -⟩ := (recorded_of c reports).estimate
    exact ⟨t, T, by rw [houtcome, t.toSample_map_meanCost], commits_le⟩
  | sample reports r taken =>
    obtain ⟨⟨t, T, houtcome⟩, commits_le, -⟩ :=
      (recorded_of c reports).sampled.computed r _ taken
    refine ⟨t, T, ?_, commits_le⟩
    rw [← t.toSample_map_meanCost, ← houtcome]
    rfl
  | overflow reports r hardware raised =>
    obtain ⟨⟨t, T, houtcome⟩, commits_le, -⟩ :=
      (recorded_of c reports).isOutcome_of_overflow hardware raised
    refine ⟨t, T, ?_, commits_le⟩
    rw [← t.toSample_map_meanCost, ← houtcome]
    rfl

/-- How mean costs go with ticks. -/
structure CostLaw (c : HybridConfig) : Prop where
  /-- If the ticks can be added up, the mean cost is their sum, which stops at the largest number,
  by the commits. -/
  computed : ∀ w outcome, Computes c w outcome → Fits w → outcome = .ok (costOf w)
  /-- If they cannot, there is an overflow. -/
  overflows : ∀ w outcome, Computes c w outcome → ¬ Fits w → commits w < 2 ^ 64 →
    outcome = .error .add
  /-- They can be added up just when the two sums, which stop at the largest number, can. -/
  fits_iff : ∀ w,
    min (commitTicks w) (2 ^ 64 - 1) + min (abortTicks w) (2 ^ 64 - 1) < 2 ^ 64 ↔ Fits w
  /-- With as many commits and no fewer ticks, a mean cost is not smaller. -/
  rises : ∀ w w' mean mean', Computes c w (.ok mean) → Computes c w' (.ok mean') →
    Outweighs w' w → mean ≤ mean'

/-- Under any settings. -/
theorem costLaw (c : HybridConfig) : CostLaw c where
  computed w outcome h fits := by
    obtain ⟨t, T, rfl, commits_le⟩ := h.exists_tally
    have := commits_le fits
    have := c.rate_lt
    exact T.meanCost_eq (by omega) fits
  overflows w outcome h hfits small := by
    obtain ⟨t, T, rfl, -⟩ := h.exists_tally
    exact T.meanCost_of_not_fits (T.commits_ne_zero small hfits) hfits
  fits_iff := add_lt_iff_fits
  rises w w' mean mean' h h' heavier := by
    obtain ⟨t, T, hmean, -⟩ := h.exists_tally
    obtain ⟨t', T', hmean', -⟩ := h'.exists_tally
    exact T.meanCost_le T' heavier hmean.symm hmean'.symm

/-- With one tick more the mean cost of a single commit, `2 ^ 64`, is an overflow. -/
example :
    let commit := CostReport.hardwareCommit (2 ^ 64 - 1)
    let abort := CostReport.hardwareAbort 1 ⟨.conflict, true⟩
    (of {} [commit]).heuristic.estimate.map (·.meanCost) = .ok 18446744073709551616 ∧
      (of {} [commit, abort]).heuristic.estimate.map (·.meanCost) = .error .add := by
  decide +kernel

end CostHistory

end HybridTM
