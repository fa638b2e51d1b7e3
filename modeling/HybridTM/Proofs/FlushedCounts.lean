import HybridTM.Metrics.Snapshot
import HybridTM.Proofs.Additions
import Mathlib.Algebra.BigOperators.Group.Finset.Piecewise

/-!
# Flushed counts

A tally names its counts in one list and a report looks its fields up by name in another. Both are
one table of fifteen statistics (`Statistic.all`): a tally is flushed under the names of the table
(`Tally.named_eq`), a report shows what is found under them (`Statistic.shown_ofMetrics`), and there
is nothing else to a tally (`Statistic.tally_ext`) or to the counters of a report
(`Statistic.report_ext`).

Counters only ever sum up what is added under their names, so a report depends on no order of the
additions and not on whether zeros are skipped (`Metrics.counter_record`). Nor does it depend on who
counted what and when it was flushed: any number of workers with tallies of their own balance
against the store at every step (`Pool.holdings_step`), and once nobody has anything left to flush
the report shows what was counted (`Tally.flushLaw`).
-/

set_option autoImplicit false

namespace HybridTM

/-! ## Statistics -/

/-- One thing that is counted and reported. -/
structure Statistic where
  /-- The name in the store. -/
  name : String
  /-- The count in a tally. -/
  counted : Tally → UInt64
  /-- The field of a report. -/
  shown : MetricsSnapshot → UInt64

namespace Statistic

/-- All that is counted and reported. -/
def all : List Statistic :=
  [⟨MetricName.commitHardware, (·.commitsHardware), (·.commits.hardware)⟩,
    ⟨MetricName.commitSoftware, (·.commitsSoftware), (·.commits.software)⟩,
    ⟨MetricName.commitSerial, (·.commitsSerial), (·.commits.serial)⟩,
    ⟨MetricName.commitGlock, (·.commitsGlock), (·.commits.glock)⟩,
    ⟨MetricName.commitReadOnly, (·.commitsReadOnly), (·.commits.readOnly)⟩,
    ⟨MetricName.abortValidation, (·.abortsValidation), (·.aborts.validation)⟩,
    ⟨MetricName.abortConflict, (·.abortsConflict), (·.aborts.conflict)⟩,
    ⟨MetricName.abortCapacity, (·.abortsCapacity), (·.aborts.capacity)⟩,
    ⟨MetricName.abortExplicit, (·.abortsExplicit), (·.aborts.explicit)⟩,
    ⟨MetricName.abortOther, (·.abortsOther), (·.aborts.other)⟩,
    ⟨MetricName.lockAttempts, (·.lockAttempts), (·.lockAttempts)⟩,
    ⟨MetricName.serialEscalations, (·.serialEscalations), (·.mode.serialEscalations)⟩,
    ⟨MetricName.switchesToSoftware, (·.switchesToSoftware), (·.mode.toSoftware)⟩,
    ⟨MetricName.switchesToHardware, (·.switchesToHardware), (·.mode.toHardware)⟩,
    ⟨MetricName.glockAcquired, (·.glockAcquisitions), (·.mode.glock)⟩]

variable {x : Statistic}

/-- A report shows what is found under the names. -/
theorem shown_ofMetrics (mem : x ∈ all) (m : Metrics) :
    x.shown (.ofMetrics m) = m.counter x.name := by
  revert x
  simp [all, MetricsSnapshot.ofMetrics]

/-- There is nothing else to a tally. -/
theorem tally_ext {a b : Tally} (h : ∀ x ∈ all, x.counted a = x.counted b) : a = b := by
  simp only [all, List.forall_mem_cons] at h
  cases a
  cases b
  simp_all

/-- Beside mode and costs there is nothing else to a report. -/
theorem report_ext {a b : MetricsSnapshot} (h : ∀ x ∈ all, x.shown a = x.shown b)
    (mode : a.mode.current = b.mode.current) (hardware : a.hardwareCost = b.hardwareCost)
    (software : a.softwareCost = b.softwareCost) : a = b := by
  simp only [all, List.forall_mem_cons] at h
  obtain ⟨⟨_, _, _, _, _⟩, ⟨_, _, _, _, _⟩, ⟨_, _, _, _, _⟩, _, _, _⟩ := a
  obtain ⟨⟨_, _, _, _, _⟩, ⟨_, _, _, _, _⟩, ⟨_, _, _, _, _⟩, _, _, _⟩ := b
  simp_all

end Statistic

/-- A tally is flushed under the names of its statistics. -/
theorem Tally.named_eq (t : Tally) : t.named = Statistic.all.map fun x => (x.name, x.counted t) :=
  rfl

/-! ## Sums of tallies -/

namespace Tally

/-- The counts of two tallies together. -/
def plus (a b : Tally) : Tally where
  commitsHardware := a.commitsHardware + b.commitsHardware
  commitsSoftware := a.commitsSoftware + b.commitsSoftware
  commitsSerial := a.commitsSerial + b.commitsSerial
  commitsGlock := a.commitsGlock + b.commitsGlock
  commitsReadOnly := a.commitsReadOnly + b.commitsReadOnly
  abortsValidation := a.abortsValidation + b.abortsValidation
  abortsConflict := a.abortsConflict + b.abortsConflict
  abortsCapacity := a.abortsCapacity + b.abortsCapacity
  abortsExplicit := a.abortsExplicit + b.abortsExplicit
  abortsOther := a.abortsOther + b.abortsOther
  lockAttempts := a.lockAttempts + b.lockAttempts
  serialEscalations := a.serialEscalations + b.serialEscalations
  switchesToSoftware := a.switchesToSoftware + b.switchesToSoftware
  switchesToHardware := a.switchesToHardware + b.switchesToHardware
  glockAcquisitions := a.glockAcquisitions + b.glockAcquisitions

/-- The counts of any number of tallies together. -/
def total (ts : List Tally) : Tally := ts.foldr plus zero

variable {x : Statistic}

theorem counted_plus (mem : x ∈ Statistic.all) (a b : Tally) :
    x.counted (a.plus b) = x.counted a + x.counted b := by
  revert x
  simp [Statistic.all, plus]

theorem counted_zero (mem : x ∈ Statistic.all) : x.counted zero = 0 := by
  revert x
  simp [Statistic.all, zero]

theorem counted_total (mem : x ∈ Statistic.all) (ts : List Tally) :
    x.counted (total ts) = (ts.map x.counted).sum := by
  induction ts with
  | nil => exact counted_zero mem
  | cons t ts ih =>
    rw [List.map_cons, List.sum_cons, ← ih]
    exact counted_plus mem t (total ts)

/-- Counts wrap, so their sum is one of natural numbers up to that. -/
theorem toNat_counted_total (mem : x ∈ Statistic.all) (ts : List Tally) :
    (x.counted (total ts)).toNat = (ts.map fun t => (x.counted t).toNat).sum % 2 ^ 64 := by
  induction ts with
  | nil => rw [total, List.foldr_nil, counted_zero mem]; rfl
  | cons t ts ih =>
    have hplus : total (t :: ts) = t.plus (total ts) := rfl
    rw [hplus, counted_plus mem, UInt64.toNat_add, ih, List.map_cons, List.sum_cons,
      Nat.add_mod_mod]

example :
    (total [{ lockAttempts := 0xFFFFFFFFFFFFFFFF }, { lockAttempts := 3 }]).lockAttempts = 2 := by
  decide

theorem total_perm {ts ts' : List Tally} (h : ts'.Perm ts) : total ts' = total ts := by
  refine Statistic.tally_ext fun x mem => ?_
  rw [counted_total mem, counted_total mem, (h.map x.counted).sum_eq]

end Tally

/-! ## Reports -/

namespace Metrics

/-- Stores with the same counters, gauges and histograms have the same report. -/
theorem report_congr {m m' : Metrics}
    (counters : ∀ x ∈ Statistic.all, m.counter x.name = m'.counter x.name)
    (gauges : m.gauges = m'.gauges) (histograms : m.histograms = m'.histograms) :
    MetricsSnapshot.ofMetrics m = .ofMetrics m' := by
  refine Statistic.report_ext (fun x mem => ?_) ?_ ?_ ?_
  · rw [Statistic.shown_ofMetrics mem, Statistic.shown_ofMetrics mem, counters x mem]
  · simp only [MetricsSnapshot.ofMetrics, gauge?, gauges]
  · simp only [MetricsSnapshot.ofMetrics, histogram?, histograms]
  · simp only [MetricsSnapshot.ofMetrics, histogram?, histograms]

end Metrics

/-! ## Flushes -/

namespace Tally

variable {x : Statistic}

/-- What a flush adds under the name of a statistic is its count. -/
theorem amount_named (mem : x ∈ Statistic.all) (t : Tally) :
    Metrics.amount x.name t.named = x.counted t := by
  have hnamed : (x.name, x.counted t) ∈ t.named := by
    rw [named_eq]
    exact List.mem_map.2 ⟨x, mem, rfl⟩
  exact Metrics.amount_of_nodup t.nodup_named hnamed

/-- A store after tallies were flushed into it one after the other. -/
def flushAll (ts : List Tally) (m : Metrics) : Metrics := ts.foldl (fun m t => (t.flush m).2) m

/-- Flushes add what the tallies name. -/
theorem flushAll_eq (ts : List Tally) (m : Metrics) :
    flushAll ts m = Metrics.record Metrics.add m (ts.flatMap named) := by
  induction ts generalizing m with
  | nil => rfl
  | cons t ts ih =>
    rw [List.flatMap_cons, Metrics.record, List.foldl_append]
    exact ih (t.flush m).2

theorem amount_flatMap_named (mem : x ∈ Statistic.all) (ts : List Tally) :
    Metrics.amount x.name (ts.flatMap named) = x.counted (total ts) := by
  induction ts with
  | nil => exact (counted_zero mem).symm
  | cons t ts ih =>
    rw [List.flatMap_cons, Metrics.amount_append, amount_named mem, ih]
    exact (counted_plus mem t (total ts)).symm

/-- The report on tallies that were flushed into a fresh store. -/
def report (ts : List Tally) : MetricsSnapshot := .ofMetrics (flushAll ts .empty)

/-- Any additions to a fresh store that amount to the same have the same report. -/
theorem report_eq {step : Metrics → String → UInt64 → Metrics} {posts : List (String × UInt64)}
    {ts : List Tally} (A : Metrics.IsAddition step)
    (h : ∀ x ∈ Statistic.all, Metrics.amount x.name posts = x.counted (total ts)) :
    MetricsSnapshot.ofMetrics (Metrics.record step .empty posts) = report ts := by
  rw [report, flushAll_eq]
  refine Metrics.report_congr (fun x mem => ?_) ?_ ?_
  · rw [Metrics.counter_record A, Metrics.counter_record Metrics.isAddition_add, h x mem,
      amount_flatMap_named mem]
  · rw [Metrics.gauges_record A, Metrics.gauges_record Metrics.isAddition_add]
  · rw [Metrics.histograms_record A, Metrics.histograms_record Metrics.isAddition_add]

/-- Tallies with the same counts in all have the same report. -/
theorem report_eq_of_total {ts ts' : List Tally} (h : total ts' = total ts) :
    report ts' = report ts := by
  have hreport := report_eq Metrics.isAddition_add fun x mem =>
    (amount_flatMap_named mem ts').trans (congrArg x.counted h)
  rw [← flushAll_eq] at hreport
  exact hreport

/-- A report shows the sum of the counts. -/
theorem shown_report (mem : x ∈ Statistic.all) (ts : List Tally) :
    x.shown (report ts) = x.counted (total ts) := by
  rw [report, Statistic.shown_ofMetrics mem, flushAll_eq,
    Metrics.counter_record Metrics.isAddition_add, amount_flatMap_named mem, Metrics.counter_empty,
    zero_add]

end Tally

/-! ## Workers with tallies of their own -/

/-- Workers with the tallies of what they have not flushed yet, and the store they share. -/
structure Pool (ι : Type) where
  /-- What each worker has not flushed. -/
  tally : ι → Tally
  /-- The store. -/
  store : Metrics

/-- What happens in a pool. -/
inductive PoolEvent (ι : Type) where
  /-- A worker counts so much more. -/
  | count (i : ι) (t : Tally)
  /-- A worker flushes its tally. -/
  | flush (i : ι)
  /-- Somebody looks up a counter. -/
  | lookup (name : String)

/-- What is counted in an event. -/
def PoolEvent.counted {ι : Type} : PoolEvent ι → Tally
  | count _ t => t
  | flush _ | lookup _ => .zero

namespace Pool

variable {ι : Type} [DecidableEq ι] {x : Statistic}

/-- Nobody has counted anything. -/
def start : Pool ι := ⟨fun _ => .zero, .empty⟩

/-- A pool after an event. -/
def step (c : Pool ι) : PoolEvent ι → Pool ι
  | .count i t => { c with tally := Function.update c.tally i ((c.tally i).plus t) }
  | .flush i =>
      let (rest, store) := (c.tally i).flush c.store
      ⟨Function.update c.tally i rest, store⟩
  | .lookup _ => c

/-- A pool after any number of events. -/
def run (c : Pool ι) (events : List (PoolEvent ι)) : Pool ι := events.foldl step c

/-- The store changes by additions only. -/
theorem exists_store_run (c : Pool ι) (events : List (PoolEvent ι)) :
    ∃ posts, (c.run events).store = Metrics.record Metrics.add c.store posts := by
  induction events generalizing c with
  | nil => exact ⟨[], rfl⟩
  | cons e events ih =>
    obtain ⟨posts, hposts⟩ := ih (c.step e)
    cases e with
    | count i t => exact ⟨posts, hposts⟩
    | flush i =>
      refine ⟨(c.tally i).named ++ posts, hposts.trans ?_⟩
      rw [Metrics.record, Metrics.record, List.foldl_append]
      rfl
    | lookup name => exact ⟨posts, hposts⟩

/-- A counter comes into being when a tally is flushed that has a count under its name. -/
theorem mem_counters_step (c : Pool ι) (e : PoolEvent ι) (name : String) :
    name ∈ (c.step e).store.counters ↔
      name ∈ c.store.counters ∨ ∃ i, e = .flush i ∧ ∃ n ≠ 0, (name, n) ∈ (c.tally i).named := by
  cases e with
  | count i t => simp [step]
  | flush i =>
    refine (Metrics.mem_counters_record c.store (c.tally i).named name).trans ?_
    simp
  | lookup other => simp [step]

variable [Fintype ι]

/-- What is in the store and in the tallies together. -/
def holdings (c : Pool ι) (x : Statistic) : UInt64 :=
  x.shown (.ofMetrics c.store) + ∑ i, x.counted (c.tally i)

theorem sum_counted_update (x : Statistic) (tally : ι → Tally) (i : ι) (t : Tally) :
    ∑ j, x.counted (Function.update tally i t j) =
      x.counted t + ∑ j ∈ Finset.univ.erase i, x.counted (tally j) := by
  rw [← Finset.add_sum_erase _ _ (Finset.mem_univ i), Function.update_self]
  congr 1
  refine Finset.sum_congr rfl fun j hj => ?_
  rw [Function.update_of_ne (Finset.ne_of_mem_erase hj)]

/-- A flush only moves what is there. -/
theorem holdings_step (mem : x ∈ Statistic.all) (c : Pool ι) (e : PoolEvent ι) :
    (c.step e).holdings x = c.holdings x + x.counted e.counted := by
  have hsum (i : ι) := Finset.add_sum_erase _ (fun j => x.counted (c.tally j)) (Finset.mem_univ i)
  cases e with
  | count i t =>
    simp only [holdings, step, PoolEvent.counted]
    rw [sum_counted_update, Tally.counted_plus mem, ← hsum i]
    ac_rfl
  | flush i =>
    have hshown : x.shown (.ofMetrics ((c.tally i).flush c.store).2) =
        x.shown (.ofMetrics c.store) + x.counted (c.tally i) := by
      rw [Statistic.shown_ofMetrics mem, Statistic.shown_ofMetrics mem, Tally.store_flush,
        Metrics.counter_record Metrics.isAddition_add, Tally.amount_named mem]
    simp only [holdings, step, PoolEvent.counted]
    rw [sum_counted_update, hshown, Tally.counted_zero mem, ← hsum i, Tally.flush,
      Tally.counted_zero mem]
    ac_rfl
  | lookup name =>
    rw [PoolEvent.counted, Tally.counted_zero mem, add_zero]
    rfl

/-- In a run the holdings grow by what is counted. -/
theorem holdings_run (mem : x ∈ Statistic.all) (c : Pool ι) (events : List (PoolEvent ι)) :
    (c.run events).holdings x =
      c.holdings x + x.counted (.total (events.map PoolEvent.counted)) := by
  induction events generalizing c with
  | nil =>
    rw [List.map_nil, Tally.total, List.foldr_nil, Tally.counted_zero mem, add_zero]
    rfl
  | cons e events ih =>
    have hrest := ih (c.step e)
    rw [holdings_step mem, add_assoc, ← Tally.counted_plus mem] at hrest
    exact hrest

/-- Once everything is flushed, the holdings are in the store. -/
theorem counter_of_flushed (mem : x ∈ Statistic.all) {events : List (PoolEvent ι)}
    (flushed : ∀ i, (start.run events).tally i = .zero) :
    (start.run events).store.counter x.name =
      x.counted (.total (events.map PoolEvent.counted)) := by
  have hstart : (start : Pool ι).holdings x = 0 := by
    simp [holdings, start, Statistic.shown_ofMetrics mem, Tally.counted_zero mem]
  have hend : (start.run events).holdings x = (start.run events).store.counter x.name := by
    simp [holdings, flushed, Statistic.shown_ofMetrics mem, Tally.counted_zero mem]
  rw [← hend, holdings_run mem, hstart, zero_add]

/-- Then the report is that on any tallies with the same counts. -/
theorem report_run {events : List (PoolEvent ι)} {ts : List Tally}
    (flushed : ∀ i, (start.run events).tally i = .zero)
    (total : Tally.total (events.map PoolEvent.counted) = .total ts) :
    MetricsSnapshot.ofMetrics (start.run events).store = Tally.report ts := by
  obtain ⟨posts, hposts⟩ := (start : Pool ι).exists_store_run events
  rw [hposts]
  refine Tally.report_eq Metrics.isAddition_add fun x mem => ?_
  have hcounter := counter_of_flushed mem flushed
  rw [hposts, Metrics.counter_record Metrics.isAddition_add, total] at hcounter
  rw [← hcounter, start, Metrics.counter_empty, zero_add]

end Pool

/-! ## What a report shows -/

namespace Tally

/-- What becomes of tallies that are flushed into a fresh store. -/
structure FlushLaw (ts : List Tally) : Prop where
  /-- Each field of the report shows the sum of the one count it stands for, which wraps. -/
  shown : ∀ x ∈ Statistic.all,
    (x.shown (report ts)).toNat = (ts.map fun t => (x.counted t).toNat).sum % 2 ^ 64
  /-- Beside these fields the report has a mode that nobody has shown yet, and no costs. -/
  whole : ∀ s : MetricsSnapshot, s = report ts ↔
    (∀ x ∈ Statistic.all, x.shown s = x.counted (total ts)) ∧
      s.mode.current = "unknown" ∧ s.hardwareCost = none ∧ s.softwareCost = none
  /-- It makes no difference in which order they are flushed. -/
  order : ∀ ts', ts'.Perm ts → report ts' = report ts
  /-- Nor does it if the additions of several flushes come in turns. -/
  additions : ∀ posts, posts.Perm (ts.flatMap named) →
    MetricsSnapshot.ofMetrics (Metrics.record Metrics.add .empty posts) = report ts
  /-- Nor that zeros are skipped. -/
  zeros : MetricsSnapshot.ofMetrics (Metrics.record Metrics.post .empty (ts.flatMap named)) =
    report ts
  /-- Nor who counts what, and when it is flushed, as long as everything is. -/
  grouping : ∀ {ι : Type} [DecidableEq ι] [Fintype ι] (events : List (PoolEvent ι)),
    (∀ i, (Pool.start.run events).tally i = zero) →
      total (events.map PoolEvent.counted) = total ts →
        MetricsSnapshot.ofMetrics (Pool.start.run events).store = report ts
  /-- A flush leaves nothing to flush. -/
  reset : ∀ (t : Tally) (m : Metrics), (t.flush m).1 = zero ∧
    ((t.flush m).1.flush (t.flush m).2).2 = (t.flush m).2
  /-- There are counters for what was counted at least once. -/
  created : ∀ name, name ∈ (flushAll ts .empty).counters ↔
    ∃ t ∈ ts, ∃ n ≠ 0, (name, n) ∈ t.named
  /-- Nothing but such a flush creates one, and so no lookup does. -/
  creates : ∀ {ι : Type} [DecidableEq ι] (c : Pool ι) (e : PoolEvent ι) (name : String),
    name ∈ (c.step e).store.counters ↔ name ∈ c.store.counters ∨
      ∃ i, e = .flush i ∧ ∃ n ≠ 0, (name, n) ∈ (c.tally i).named

/-- No mode was shown to a fresh store, and no cost was observed. -/
theorem rest_report (ts : List Tally) :
    (report ts).mode.current = "unknown" ∧ (report ts).hardwareCost = none ∧
      (report ts).softwareCost = none := by
  have hgauge (name : String) : (flushAll ts .empty).gauge? name = none := by
    rw [Metrics.gauge?, flushAll_eq, Metrics.gauges_record Metrics.isAddition_add]
    exact Std.HashMap.getElem?_empty
  have hhistogram (name : String) : (flushAll ts .empty).histogram? name = none := by
    rw [Metrics.histogram?, flushAll_eq, Metrics.histograms_record Metrics.isAddition_add]
    exact Std.HashMap.getElem?_empty
  simp only [report, MetricsSnapshot.ofMetrics, hgauge, hhistogram, Option.map_none,
    MetricsSnapshot.modeLabel, and_self]

/-- A tally that counts nothing leaves the store as it is. -/
theorem flush_zero (m : Metrics) : (zero.flush m).2 = m := by
  simp [flush, named, zero, Metrics.add]

/-- The counts of flushed tallies arrive in their fields of the report. -/
theorem flushLaw (ts : List Tally) : FlushLaw ts where
  shown x mem := by rw [shown_report mem, toNat_counted_total mem]
  whole s := by
    obtain ⟨hmode, hhardware, hsoftware⟩ := rest_report ts
    constructor
    · rintro rfl
      exact ⟨fun x mem => shown_report mem ts, hmode, hhardware, hsoftware⟩
    · rintro ⟨hshown, hmode', hhardware', hsoftware'⟩
      refine Statistic.report_ext (fun x mem => ?_) (hmode'.trans hmode.symm)
        (hhardware'.trans hhardware.symm) (hsoftware'.trans hsoftware.symm)
      rw [hshown x mem, shown_report mem]
  order _ h := report_eq_of_total (total_perm h)
  additions posts h := by
    refine report_eq Metrics.isAddition_add fun x mem => ?_
    rw [Metrics.amount_perm h, amount_flatMap_named mem]
  zeros := report_eq Metrics.isAddition_post fun x mem => amount_flatMap_named mem ts
  grouping _ flushed total := Pool.report_run flushed total
  reset t m := ⟨rfl, flush_zero _⟩
  created name := by
    rw [flushAll_eq, Metrics.mem_counters_record]
    constructor
    · rintro (hempty | ⟨n, hn, mem⟩)
      · exact absurd hempty Std.HashMap.not_mem_empty
      · obtain ⟨t, ht, mem⟩ := List.mem_flatMap.1 mem
        exact ⟨t, ht, n, hn, mem⟩
    · rintro ⟨t, ht, n, hn, mem⟩
      exact Or.inr ⟨n, hn, List.mem_flatMap.2 ⟨t, ht, mem⟩⟩
  creates c e name := c.mem_counters_step e name

end Tally

end HybridTM
