import HybridTM.Abort
import HybridTM.Hybrid.Config

/-!
# When to leave hardware, and when to return

Each thread samples the cost of its hardware regions: the ticks of all regions of a
window per commit, and the percentage of explicit aborts. Two capacity aborts in a row
send it to software if the latest sample is expensive or has many explicit aborts.

In software it measures the mean cost of its commits over a window. The window doubles
while software stays cheaper than the last hardware sample; the thread returns to
hardware when software is no cheaper, or, if no hardware cost is known, after a window of
the largest size.

Every record adds to the two sums of ticks of its window, which stop at the largest number.
A mean cost needs the sum of both, and that addition is checked: where it overflows the
thread panics, and whoever asked for the cost learns of it (`Overflow`).
-/

namespace HybridTM

/-- A sample of hardware costs. -/
structure HardwareSample where
  /-- The mean ticks per commit, infinite if nothing committed. -/
  meanCost : Float
  /-- The explicit aborts as a percentage of all attempts. -/
  explicitRate : Float

/-- The hardware attempts since the last sample. -/
structure SampleWindow where
  /-- The ticks of committed regions, up to the largest 64-bit number. -/
  commitTicks : UInt64 := 0
  /-- The ticks of aborted regions, up to the largest 64-bit number. -/
  abortTicks : UInt64 := 0
  /-- The committed regions. -/
  commits : UInt64 := 0
  /-- The aborted regions. -/
  aborts : UInt64 := 0
  /-- The regions that aborted themselves. -/
  explicitAborts : UInt64 := 0
  deriving DecidableEq, Repr

/-- What a thread does after a commit of its software epoch. -/
inductive Verdict where
  /-- Go on; the window is not complete. -/
  | stay
  /-- Go on with a larger window; software is still cheaper. -/
  | extend
  /-- Give hardware another try. -/
  | returnToHardware
  deriving DecidableEq, Repr

/-- The adaptive state of one thread. -/
structure Heuristic where
  /-- The commits or aborts from one sample to the next. -/
  samplingRate : UInt64
  /-- The mean cost above which hardware is expensive. -/
  costThreshold : Float
  /-- The percentage above which explicit aborts are many. -/
  explicitRateThreshold : Float
  /-- The first software window. -/
  windowInitial : UInt64
  /-- The largest software window. -/
  windowMax : UInt64
  /-- The hardware attempts since the last sample. -/
  hardware : SampleWindow
  /-- The last sample. -/
  sample : Option HardwareSample
  /-- The capacity aborts in a row. -/
  capacityRun : UInt32
  /-- The hardware cost that software competes against. -/
  lastHardwareCost : Float
  /-- The software window in commits. -/
  softwareWindow : UInt64
  /-- The ticks of software commits in the window so far. -/
  softwareTicks : UInt64
  /-- The software commits in the window so far. -/
  softwareCommits : UInt64
  /-- The mean cost over the last complete window. -/
  lastSoftwareMean : Option Float

/-- The sum of two numbers, or the largest 64-bit number. -/
def addSaturating (a b : UInt64) : UInt64 :=
  .ofNat (min (a.toNat + b.toNat) (UInt64.size - 1))

theorem toNat_addSaturating (a b : UInt64) :
    (addSaturating a b).toNat = min (a.toNat + b.toNat) (UInt64.size - 1) :=
  UInt64.toNat_ofNat_of_lt' (by simp only [UInt64.size]; omega)

/-- A sum that fits does not stop at the largest number. -/
theorem toNat_addSaturating_of_lt {a b : UInt64} (fits : a.toNat + b.toNat < UInt64.size) :
    (addSaturating a b).toNat = a.toNat + b.toNat := by
  rw [toNat_addSaturating]
  omega

/-- An operation whose result does not fit into 64 bits. -/
inductive Overflow where
  /-- An addition. -/
  | add
  deriving DecidableEq, Repr

/-- The text of the panic. -/
def Overflow.message : Overflow → String
  | .add => "attempt to add with overflow"

/-- The sum of two numbers, if it fits into 64 bits. -/
def addChecked (a b : UInt64) : Except Overflow UInt64 :=
  if a.toNat + b.toNat < UInt64.size then .ok (a + b) else .error .add

theorem addChecked_of_lt {a b : UInt64} (h : a.toNat + b.toNat < UInt64.size) :
    addChecked a b = .ok (a + b) := if_pos h

theorem addChecked_of_le {a b : UInt64} (h : UInt64.size ≤ a.toNat + b.toNat) :
    addChecked a b = .error .add := if_neg (Nat.not_lt.2 h)

/-- What is computed from a result is computed from one that did not fail. -/
theorem exists_of_map_eq_ok {ε α β : Type} {x : Except ε α} {f : α → β} {b : β}
    (h : x.map f = .ok b) : ∃ a, x = .ok a ∧ f a = b := by
  cases x with
  | error e => cases h
  | ok a => exact ⟨a, rfl, Except.ok.inj h⟩

theorem exists_map_eq_ok {ε α β : Type} {x : Except ε α} (h : ∃ a, x = .ok a) (f : α → β) :
    ∃ b, x.map f = .ok b := by
  obtain ⟨a, rfl⟩ := h
  exact ⟨f a, rfl⟩

/-- The cost of hardware that never committed. -/
def infiniteCost : Float := 1.0 / 0.0

namespace SampleWindow

/-- The mean ticks per commit. Nothing is added up where nothing committed. -/
def meanCost (w : SampleWindow) : Except Overflow Float :=
  if w.commits = 0 then .ok infiniteCost
  else (addChecked w.commitTicks w.abortTicks).map (·.toFloat / w.commits.toFloat)

/-- The explicit aborts as a percentage of all attempts. -/
def explicitRate (w : SampleWindow) : Float :=
  let attempts := w.commits + w.aborts
  if attempts = 0 then 0 else w.explicitAborts.toFloat * 100.0 / attempts.toFloat

/-- The sample of a window. -/
def toSample (w : SampleWindow) : Except Overflow HardwareSample :=
  w.meanCost.map fun meanCost => { meanCost, explicitRate := w.explicitRate }

/-- If the ticks can be added up there is a sample. -/
theorem exists_toSample {w : SampleWindow}
    (fits : w.commitTicks.toNat + w.abortTicks.toNat < UInt64.size) :
    ∃ sample, w.toSample = .ok sample := by
  refine exists_map_eq_ok ?_ _
  unfold meanCost
  split
  · exact ⟨_, rfl⟩
  · exact exists_map_eq_ok ⟨_, addChecked_of_lt fits⟩ _

/-- The window with one more committed region. -/
def addCommit (w : SampleWindow) (ticks : UInt64) : SampleWindow :=
  { w with commitTicks := addSaturating w.commitTicks ticks, commits := w.commits + 1 }

/-- The window with one more aborted region. -/
def addAbort (w : SampleWindow) (ticks : UInt64) (abort : HardwareAbort) : SampleWindow :=
  { w with
    abortTicks := addSaturating w.abortTicks ticks
    aborts := w.aborts + 1
    explicitAborts :=
      if abort.explicitCode?.isSome then w.explicitAborts + 1 else w.explicitAborts }

/-- Whether a window is complete at a sampling rate. -/
def isComplete (w : SampleWindow) (rate : UInt64) : Bool :=
  rate ≤ w.commits || rate ≤ w.aborts

end SampleWindow

namespace Heuristic

/-- The state of a thread that ran nothing. Rates and windows are at least one, and the
largest window is no smaller than the first. -/
def new (c : HybridConfig) : Heuristic where
  samplingRate := (max c.samplingRate 1).toUInt64
  costThreshold := c.costThreshold.toFloat
  explicitRateThreshold := c.explicitRateThreshold.toUInt64.toFloat
  windowInitial := (max c.windowInitial 1).toUInt64
  windowMax := (max c.windowMax (max c.windowInitial 1)).toUInt64
  hardware := {}
  sample := none
  capacityRun := 0
  lastHardwareCost := infiniteCost
  softwareWindow := (max c.windowInitial 1).toUInt64
  softwareTicks := 0
  softwareCommits := 0
  lastSoftwareMean := none

/-! ## Hardware -/

/-- Take a sample if the window is complete, and begin the next one. A sample that
overflows leaves the window as it is. -/
def takeSample (h : Heuristic) : Except Overflow (Option HardwareSample) × Heuristic :=
  if h.hardware.isComplete h.samplingRate then
    match h.hardware.toSample with
    | .ok sample => (.ok (some sample), { h with sample := some sample, hardware := {} })
    | .error overflow => (.error overflow, h)
  else
    (.ok none, h)

/-- Record a committed region. The result is the sample that this completes. -/
def recordHardwareCommit (h : Heuristic) (ticks : UInt64) :
    Except Overflow (Option HardwareSample) × Heuristic :=
  { h with hardware := h.hardware.addCommit ticks, capacityRun := 0 }.takeSample

/-- Record an aborted region. The result is the sample that this completes. -/
def recordHardwareAbort (h : Heuristic) (ticks : UInt64) (abort : HardwareAbort) :
    Except Overflow (Option HardwareSample) × Heuristic :=
  { h with
    hardware := h.hardware.addAbort ticks abort
    capacityRun := if abort.isCapacity then h.capacityRun + 1 else 0 }.takeSample

/-- The last sample, or that of the running window before the first. -/
def estimate (h : Heuristic) : Except Overflow HardwareSample :=
  match h.sample with
  | some sample => .ok sample
  | none => h.hardware.toSample

/-- Whether a thread turns to software after an abort that it has recorded. -/
def favorsSoftware (h : Heuristic) (abort : HardwareAbort) : Except Overflow Bool :=
  if abort.reason = .unsupported then
    .ok true
  -- A single capacity abort may be an accident of the cache.
  else if h.capacityRun < 2 then
    .ok false
  else
    h.estimate.map fun estimate =>
      h.costThreshold < estimate.meanCost || h.explicitRateThreshold < estimate.explicitRate

/-! ## Software -/

/-- Begin a software epoch with the first window. -/
def beginEpoch (h : Heuristic) : Except Overflow Heuristic :=
  h.estimate.map fun estimate =>
    { h with
      lastHardwareCost := estimate.meanCost
      softwareWindow := h.windowInitial
      softwareTicks := 0
      softwareCommits := 0
      capacityRun := 0 }

/-- What a complete window with the given mean calls for. -/
def judge (h : Heuristic) (mean : Float) : Verdict :=
  if h.lastHardwareCost.isFinite then
    if h.lastHardwareCost ≤ mean then .returnToHardware else .extend
  else
    -- There is nothing to compare with, so hardware is tried again in the end.
    if h.windowMax ≤ h.softwareWindow then .returnToHardware else .extend

/-- Record a commit of the software epoch. -/
def recordSoftwareCommit (h : Heuristic) (ticks : UInt64) : Verdict × Heuristic :=
  let h :=
    { h with
      softwareTicks := addSaturating h.softwareTicks ticks
      softwareCommits := h.softwareCommits + 1 }
  if h.softwareCommits < h.softwareWindow then
    (.stay, h)
  else
    let mean := h.softwareTicks.toFloat / h.softwareCommits.toFloat
    let h :=
      { h with lastSoftwareMean := some mean, softwareTicks := 0, softwareCommits := 0 }
    match h.judge mean with
    | .extend =>
        (.extend, { h with softwareWindow := min (h.softwareWindow * 2) h.windowMax })
    | verdict => (verdict, h)

end Heuristic

end HybridTM
