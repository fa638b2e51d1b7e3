import HybridTM.Proofs.SoftwareOnly
import Mathlib.Algebra.BigOperators.Intervals

/-!
# Windows of a software epoch

An epoch runs through windows that double up to the largest size. Where hardware never commits its
cost stays infinite, samples or not (`Heuristic.Unmeasured`), so that software competes with nothing
and the epoch ends with the first window of the largest size
(`Heuristic.Reached.recordSoftwareCommit`).
-/

set_option autoImplicit false

namespace HybridTM

namespace HybridConfig

/-- The windows of an epoch in commits. -/
def window (c : HybridConfig) : Nat → Nat
  | 0 => c.windowInitial.toNat
  | k + 1 => min (2 * c.window k) c.windowMax.toNat

/-- The first window of the largest size. -/
structure IsLastWindow (c : HybridConfig) (k : Nat) : Prop where
  /-- It has the largest size. -/
  full : c.window k = c.windowMax.toNat
  /-- No window before it has. -/
  first : ∀ l < k, c.window l ≠ c.windowMax.toNat

/-- There is one at most. -/
theorem IsLastWindow.unique {c : HybridConfig} {k l : Nat} (hk : c.IsLastWindow k)
    (hl : c.IsLastWindow l) : k = l :=
  Nat.le_antisymm (Nat.not_lt.1 fun hlt => hk.first l hlt hl.full)
    (Nat.not_lt.1 fun hlt => hl.first k hlt hk.full)

/-- The commits of an epoch in so many windows. -/
def commitsIn (c : HybridConfig) (k : Nat) : Nat := ∑ l ∈ Finset.range k, c.window l

/-- The windows of valid settings are not empty, and the first is not larger than the largest. -/
structure HasWindows (c : HybridConfig) : Prop where
  /-- The first window is not empty. -/
  pos : 0 < c.windowInitial.toNat
  /-- It is no larger than the largest. -/
  le : c.windowInitial.toNat ≤ c.windowMax.toNat

variable {c : HybridConfig}

/-- Settings that were validated have windows, and allow a retry. -/
theorem hasWindows_of_validate (h : c.validate = .ok ()) : c.HasWindows ∧ c.maxRetries ≠ 0 := by
  unfold validate at h
  split at h
  · cases h
  · next retries =>
    split at h
    · cases h
    · split at h
      · cases h
      · split at h
        · cases h
        · next initial =>
          split at h
          · cases h
          · next largest =>
            refine ⟨⟨Nat.pos_of_ne_zero fun hzero => ?_, ?_⟩, retries⟩
            · exact initial (UInt32.toNat_inj.1 hzero)
            · exact UInt32.le_iff_toNat_le.1 (UInt32.not_lt.1 largest)

namespace HasWindows

theorem window_le (H : c.HasWindows) (k : Nat) : c.window k ≤ c.windowMax.toNat := by
  cases k with
  | zero => exact H.le
  | succ k => exact Nat.min_le_right ..

/-- Up to the largest size every window is larger than the one before. -/
theorem le_window (H : c.HasWindows) (k : Nat) :
    min (k + 1) c.windowMax.toNat ≤ c.window k := by
  induction k with
  | zero => exact (Nat.min_le_left ..).trans H.pos
  | succ k ih =>
    rw [window]
    omega

theorem window_pos (H : c.HasWindows) (k : Nat) : 0 < c.window k := by
  have := H.le_window k
  have := H.pos
  have := H.le
  omega

/-- There is a last window. -/
theorem exists_isLastWindow (H : c.HasWindows) : ∃ k, c.IsLastWindow k := by
  have full : ∃ k, c.window k = c.windowMax.toNat := by
    refine ⟨c.windowMax.toNat, Nat.le_antisymm (H.window_le _) ?_⟩
    have := H.le_window c.windowMax.toNat
    omega
  exact ⟨Nat.find full, Nat.find_spec full, fun l hl => Nat.find_min full hl⟩

end HasWindows

end HybridConfig

/-! ## The cost of hardware -/

/-- The cost of hardware that never committed is no number. -/
theorem infiniteCost_isFinite : infiniteCost.isFinite = false := by decide +kernel

namespace Heuristic

variable {c : HybridConfig} {h h' : Heuristic}

/-- A heuristic under some settings that has seen no commit in hardware. -/
structure Unmeasured (c : HybridConfig) (h : Heuristic) : Prop where
  /-- The first window is that of the settings. -/
  windowInitial : h.windowInitial = c.windowInitial.toUInt64
  /-- So is the largest. -/
  windowMax : h.windowMax = c.windowMax.toUInt64
  /-- No region committed since the last sample. -/
  commits : h.hardware.commits = 0
  /-- Nor before it. -/
  sample : ∀ sample, h.sample = some sample → sample.meanCost = infiniteCost
  /-- Software competes with nothing. -/
  cost : h.lastHardwareCost = infiniteCost

theorem unmeasured_new (H : c.HasWindows) : (new c).Unmeasured c := by
  have larger {a b : UInt32} (h : b.toNat ≤ a.toNat) : max a b = a :=
    UInt32.toNat_inj.1 ((UInt32.toNat_max a b).trans (max_eq_left h))
  have hinitial : max c.windowInitial 1 = c.windowInitial := larger H.pos
  have hmax : max c.windowMax (max c.windowInitial 1) = c.windowMax := by
    rw [hinitial]
    exact larger H.le
  exact ⟨congrArg UInt32.toUInt64 hinitial, congrArg UInt32.toUInt64 hmax, rfl, nofun, rfl⟩

namespace Unmeasured

/-- Where nothing committed no ticks are added up. -/
theorem toSample (U : h.Unmeasured c) :
    h.hardware.toSample = .ok ⟨infiniteCost, h.hardware.explicitRate⟩ := by
  rw [SampleWindow.toSample, SampleWindow.meanCost, if_pos U.commits]
  rfl

theorem estimate (U : h.Unmeasured c) {estimate : HardwareSample}
    (hestimate : h.estimate = .ok estimate) : estimate.meanCost = infiniteCost := by
  unfold Heuristic.estimate at hestimate
  split at hestimate
  · next sample hsample =>
    obtain rfl := Except.ok.inj hestimate
    exact U.sample sample hsample
  · rw [U.toSample] at hestimate
    rw [← Except.ok.inj hestimate]

theorem takeSample (U : h.Unmeasured c) : h.takeSample.2.Unmeasured c := by
  unfold Heuristic.takeSample
  rw [U.toSample]
  split
  · refine ⟨U.windowInitial, U.windowMax, rfl, ?_, U.cost⟩
    intro sample hsample
    rw [← Option.some.inj hsample]
  · exact U

theorem recordHardwareAbort (U : h.Unmeasured c) (ticks : UInt64) (abort : HardwareAbort) :
    (h.recordHardwareAbort ticks abort).2.Unmeasured c :=
  takeSample ⟨U.windowInitial, U.windowMax, U.commits, U.sample, U.cost⟩

theorem beginEpoch (U : h.Unmeasured c) (begun : h.beginEpoch = .ok h') : h'.Unmeasured c := by
  obtain ⟨estimate, hestimate, rfl⟩ := exists_of_map_eq_ok begun
  exact ⟨U.windowInitial, U.windowMax, U.commits, U.sample, U.estimate hestimate⟩

theorem recordSoftwareCommit (U : h.Unmeasured c) (ticks : UInt64) :
    (h.recordSoftwareCommit ticks).2.Unmeasured c := by
  obtain ⟨windowInitial, windowMax, commits, sample, cost⟩ := U
  unfold Heuristic.recordSoftwareCommit
  simp only
  split
  · exact ⟨windowInitial, windowMax, commits, sample, cost⟩
  · split <;> exact ⟨windowInitial, windowMax, commits, sample, cost⟩

/-- Software competes with nothing, and an epoch ends with a complete window of the largest size. -/
theorem verdict (U : h.Unmeasured c) (ticks : UInt64) :
    if h.softwareCommits + 1 < h.softwareWindow then
      (h.recordSoftwareCommit ticks).1 = .stay ∧
        (h.recordSoftwareCommit ticks).2.softwareWindow = h.softwareWindow ∧
        (h.recordSoftwareCommit ticks).2.softwareCommits = h.softwareCommits + 1
    else if h.windowMax ≤ h.softwareWindow then
      (h.recordSoftwareCommit ticks).1 = .returnToHardware
    else
      (h.recordSoftwareCommit ticks).1 = .extend ∧
        (h.recordSoftwareCommit ticks).2.softwareWindow =
          min (h.softwareWindow * 2) h.windowMax ∧
        (h.recordSoftwareCommit ticks).2.softwareCommits = 0 := by
  have judge {h : Heuristic} (cost : h.lastHardwareCost = infiniteCost) (mean : Float) :
      h.judge mean = if h.windowMax ≤ h.softwareWindow then .returnToHardware else .extend := by
    rw [Heuristic.judge, cost, infiniteCost_isFinite, if_neg Bool.false_ne_true]
  unfold Heuristic.recordSoftwareCommit
  simp only
  split
  · exact ⟨rfl, rfl, rfl⟩
  · rw [judge (by exact U.cost)]
    split
    · rfl
    · exact ⟨rfl, rfl, rfl⟩

end Unmeasured

/-! ## Windows -/

/-- So many commits were made in an epoch with the given last window. -/
structure Reached (c : HybridConfig) (last : Nat) (h : Heuristic) (m : Nat) : Prop where
  /-- They are so many whole windows, and some commits of the next. -/
  commits : ∃ k ≤ last, h.softwareWindow.toNat = c.window k ∧
    h.softwareCommits.toNat < c.window k ∧ m = c.commitsIn k + h.softwareCommits.toNat

theorem reached_beginEpoch (U : h.Unmeasured c) (H : c.HasWindows) (last : Nat)
    (begun : h.beginEpoch = .ok h') : h'.Reached c last 0 := by
  obtain ⟨estimate, -, rfl⟩ := exists_of_map_eq_ok begun
  refine ⟨0, Nat.zero_le last, ?_, H.window_pos 0, rfl⟩
  show h.windowInitial.toNat = c.windowInitial.toNat
  rw [U.windowInitial, UInt32.toNat_toUInt64]

/-- With one more commit the epoch ends just when its last window is complete. -/
theorem Reached.recordSoftwareCommit {last m : Nat} (R : h.Reached c last m)
    (U : h.Unmeasured c) (H : c.HasWindows) (L : c.IsLastWindow last) (ticks : UInt64) :
    if (h.recordSoftwareCommit ticks).1 = .returnToHardware then m + 1 = c.commitsIn (last + 1)
    else (h.recordSoftwareCommit ticks).2.Reached c last (m + 1) := by
  obtain ⟨k, hk, hwindow, hbelow, rfl⟩ := R
  have hsize : c.window k < 2 ^ 32 := (H.window_le k).trans_lt c.windowMax.toNat_lt
  have hsucc : (h.softwareCommits + 1).toNat = h.softwareCommits.toNat + 1 := by
    rw [UInt64.toNat_add, UInt64.toNat_one]
    omega
  have hmax : h.windowMax.toNat = c.windowMax.toNat := by
    rw [U.windowMax, UInt32.toNat_toUInt64]
  have V := U.verdict ticks
  simp only [UInt64.lt_iff_toNat_lt, UInt64.le_iff_toNat_le, hsucc, hmax, hwindow] at V
  split at V
  · next hstay =>
    -- The window is not complete.
    obtain ⟨hverdict, hwindow', hcommits'⟩ := V
    rw [hverdict, if_neg nofun]
    refine ⟨k, hk, ?_, ?_, ?_⟩
    · rw [hwindow', hwindow]
    · rw [hcommits', hsucc]
      exact hstay
    · rw [hcommits', hsucc, Nat.add_assoc]
  · next hfull =>
    have hcommits : c.commitsIn k + h.softwareCommits.toNat + 1 = c.commitsIn (k + 1) := by
      rw [HybridConfig.commitsIn, HybridConfig.commitsIn, Finset.sum_range_succ]
      omega
    split at V
    · next hlargest =>
      rw [V, if_pos rfl, hcommits, Nat.le_antisymm hk (Nat.not_lt.1 fun hlt => ?_)]
      exact L.first k hlt (Nat.le_antisymm (H.window_le k) hlargest)
    · next hsmall =>
      -- The next window is twice as large, up to the largest size.
      obtain ⟨hverdict, hwindow', hcommits'⟩ := V
      have hlast : k ≠ last := by
        rintro rfl
        exact hsmall (Nat.le_of_eq L.full.symm)
      have hdouble : (h.softwareWindow * 2).toNat = 2 * c.window k := by
        rw [UInt64.toNat_mul, hwindow]
        show c.window k * 2 % 2 ^ 64 = _
        omega
      rw [hverdict, if_neg nofun]
      refine ⟨k + 1, by omega, ?_, ?_, ?_⟩
      · rw [hwindow', HybridConfig.window, ← hdouble, ← hmax]
        exact UInt64.toNat_min ..
      · rw [hcommits']
        exact H.window_pos (k + 1)
      · rw [hcommits', hcommits]
        rfl

/-- An epoch that has not ended has room for another commit. -/
theorem Reached.lt {last m : Nat} (R : h.Reached c last m) : m < c.commitsIn (last + 1) := by
  obtain ⟨k, hk, -, hbelow, rfl⟩ := R
  calc c.commitsIn k + h.softwareCommits.toNat < c.commitsIn k + c.window k := by omega
    _ = c.commitsIn (k + 1) := (Finset.sum_range_succ _ _).symm
    _ ≤ c.commitsIn (last + 1) :=
      Finset.sum_le_sum_of_subset (Finset.range_mono (Nat.succ_le_succ hk))

end Heuristic

/-! ## Steps -/

/-- Without hardware the heuristic never sees a commit there. -/
theorem Phase.Learns.unmeasured {c : HybridConfig} {h h' : Heuristic} {p p' : Phase} {q : Request}
    {d : Bool} {n : Nat} (L : p.Learns h q p' h') (U : p.Unaided d n) (M : h.Unmeasured c) :
    h'.Unmeasured c := by
  unfold Phase.Learns at L
  split at L
  · cases U.2.2
  · split at L
    · rw [L]
      exact M
    · rw [L.1]
      exact M.recordHardwareAbort _ _
  · rw [L.1]
    exact M.recordSoftwareCommit _
  · exact M.beginEpoch L
  · rw [L]
    exact M

end HybridTM
