import HybridTM.Metrics.Histogram
import HybridTM.Proofs.Runs
import Mathlib.Algebra.BigOperators.Group.List.Basic
import Mathlib.Data.List.Perm.Basic
import Mathlib.Data.UInt

/-!
# Counts of buckets

After any values (`Histogram.ofValues`) every bucket of a histogram has counted the values that are
not above its own bound but above all bounds before it, and the overflow bucket those that are above
all bounds. Where the bounds ascend, the buckets up to a bound have together counted the values that
are not above it, and all buckets have counted all values (`Histogram.reports_ofValues`).

What an observation keeps is said modulo 2^64 (`Histogram.Tallied`). The counts are exact as long as
fewer values were observed, while the sum may wrap before that. Two observations can change places,
and so the order of the values does not matter (`Histogram.ofValues_perm`).
-/

set_option autoImplicit false

namespace HybridTM

/-- The elements that some function sends below a bound, by what it sends them to. -/
theorem sum_countP_eq {α : Type} (f : α → Nat) (l : List α) (n : Nat) :
    ((List.range n).map fun i => l.countP (f · = i)).sum = l.countP (f · < n) := by
  have succ (n : Nat) : l.countP (f · < n + 1) = l.countP (f · < n) + l.countP (f · = n) := by
    induction l with
    | nil => rfl
    | cons x l ih =>
      simp only [List.countP_cons, decide_eq_true_eq, ih]
      split_ifs <;> omega
  induction n with
  | zero => simp
  | succ n ih => rw [List.sum_range_succ, ih, succ]

namespace Histogram

variable {bounds values : List UInt64} {h : Histogram} {i : Nat}

/-- The histogram with the given bounds after the given values, the first one observed first. -/
def ofValues (bounds values : List UInt64) : Histogram := values.foldl observe (withBounds bounds)

theorem ofValues_concat (bounds values : List UInt64) (v : UInt64) :
    ofValues bounds (values ++ [v]) = (ofValues bounds values).observe v := List.foldl_concat ..

/-! ## The order of observations -/

theorem toNat_max_observe (h : Histogram) (v : UInt64) :
    (h.observe v).max.toNat = Max.max h.max.toNat v.toNat := by
  show (if h.max < v then v else h.max).toNat = _
  split
  · next hlt => exact (Nat.max_eq_right (UInt64.lt_iff_toNat_lt.1 hlt).le).symm
  · next hle => exact (Nat.max_eq_left (UInt64.le_iff_toNat_le.1 (UInt64.not_lt.1 hle))).symm

/-- Two observations can change places. -/
theorem observe_right_comm (h : Histogram) (v w : UInt64) :
    (h.observe v).observe w = (h.observe w).observe v := by
  have counts : ((h.observe v).observe w).counts = ((h.observe w).observe v).counts := by
    show (h.counts.modify _ _).modify _ _ = (h.counts.modify _ _).modify _ _
    by_cases hbucket : bucketOf h.bounds v = bucketOf h.bounds w
    · rw [bounds_observe, bounds_observe, hbucket]
    · exact List.modify_modify_ne _ _ _ hbucket
  have sum : ((h.observe v).observe w).sum = ((h.observe w).observe v).sum :=
    add_right_comm h.sum v w
  have max : ((h.observe v).observe w).max = ((h.observe w).observe v).max := by
    rw [← UInt64.toNat_inj]
    simp only [toNat_max_observe]
    omega
  simp only [observe] at counts sum max ⊢
  rw [counts, sum, max]

/-- A histogram does not depend on the order of its values. -/
theorem ofValues_perm {values' : List UInt64} (p : values'.Perm values) :
    ofValues bounds values' = ofValues bounds values :=
  p.foldl_eq' (fun v _ w _ h => observe_right_comm h v w) (withBounds bounds)

/-! ## The bucket of a value -/

/-- A bucket is for the values that are not above its bound but above all bounds before it. -/
theorem bucketOf_eq_iff (hi : i < bounds.length) (v : UInt64) :
    bucketOf bounds v = i ↔ v ≤ bounds[i] ∧ ∀ j (_ : j < i), bounds[j] < v := by
  rw [bucketOf, List.findIdx_eq hi]
  simp only [decide_eq_true_eq, decide_eq_false_iff_not, UInt64.not_le]

/-- The overflow bucket is for the values that are above all bounds. -/
theorem bucketOf_eq_length_iff (v : UInt64) :
    bucketOf bounds v = bounds.length ↔ bounds.all (· < v) = true := by
  rw [bucketOf, List.findIdx_eq_length, List.all_eq_true]
  simp only [decide_eq_false_iff_not, decide_eq_true_eq, UInt64.not_le]

/-- Where the bounds ascend, the values that are not above one go to its bucket or one before. -/
theorem bucketOf_le_iff (ascending : bounds.Pairwise (· ≤ ·)) (hi : i < bounds.length)
    (v : UInt64) : bucketOf bounds v ≤ i ↔ v ≤ bounds[i] := by
  constructor
  · intro hle
    -- The value is not above the bound of its own bucket, which comes no later.
    obtain ⟨hv, -⟩ := (bucketOf_eq_iff (hle.trans_lt hi) v).1 rfl
    rcases hle.eq_or_lt with heq | hlt
    · simpa only [heq] using hv
    · exact UInt64.le_trans hv (List.pairwise_iff_getElem.1 ascending _ i (hle.trans_lt hi) hi hlt)
  · intro hv
    by_contra hlt
    -- Otherwise the search passed this bound, in any order of the bounds.
    have above : decide (v ≤ bounds[i]) = false := List.not_of_lt_findIdx (Nat.not_le.1 hlt)
    exact of_decide_eq_false above hv

/-! ## What an observation keeps -/

/-- A histogram has counted the given values. -/
structure Tallied (values : List UInt64) (h : Histogram) : Prop where
  /-- Every bucket has counted those that go to it. -/
  counts : h.counts = (List.range (h.bounds.length + 1)).map fun i =>
    .ofNat (values.countP (bucketOf h.bounds · = i))
  /-- All are counted. -/
  count : h.count = .ofNat values.length
  /-- They are summed up. -/
  sum : h.sum = .ofNat (values.map UInt64.toNat).sum
  /-- None is above the largest. -/
  le_max : ∀ v ∈ values, v ≤ h.max
  /-- The largest is one of them, or zero if there are none. -/
  max_mem : h.max ∈ values ∨ values = [] ∧ h.max = 0

theorem tallied_withBounds (bounds : List UInt64) : (withBounds bounds).Tallied [] where
  counts := by
    show List.replicate (bounds.length + 1) 0 = (List.range (bounds.length + 1)).map fun _ => 0
    rw [List.map_const', List.length_range]
  count := rfl
  sum := rfl
  le_max := nofun
  max_mem := Or.inr ⟨rfl, rfl⟩

theorem Tallied.observe (T : h.Tallied values) (v : UInt64) :
    (h.observe v).Tallied (values ++ [v]) where
  counts := by
    show h.counts.modify _ _ = _
    ext1 i
    rw [List.getElem?_modify, T.counts, List.getElem?_map, List.getElem?_map]
    by_cases hi : i < h.bounds.length + 1
    · rw [bounds_observe, List.getElem?_range hi, Option.map_some, Option.map_some, countP_concat]
      by_cases hbucket : bucketOf h.bounds v = i
      · simp [hbucket]
      · simp [hbucket]
    · rw [bounds_observe, List.getElem?_eq_none (by simpa using hi)]
      rfl
  count := by
    show h.count + 1 = _
    rw [T.count, List.length_append, UInt64.ofNat_add]
    rfl
  sum := by
    show h.sum + v = _
    rw [T.sum, sum_map_concat, UInt64.ofNat_add, UInt64.ofNat_toNat]
  le_max := by
    intro w hw
    rw [UInt64.le_iff_toNat_le, toNat_max_observe]
    rcases List.mem_append.1 hw with hw | hw
    · exact (UInt64.le_iff_toNat_le.1 (T.le_max w hw)).trans (Nat.le_max_left ..)
    · rw [List.mem_singleton.1 hw]
      exact Nat.le_max_right ..
  max_mem := by
    left
    show (if h.max < v then v else h.max) ∈ _
    split
    · exact List.mem_append_right _ List.mem_cons_self
    · next hle =>
      rcases T.max_mem with hmem | ⟨rfl, hzero⟩
      · exact List.mem_append_left _ hmem
      · -- The first value takes the place of the zero unless it is zero itself.
        rw [hzero, ← UInt64.le_zero_iff.1 (hzero ▸ UInt64.not_lt.1 hle)]
        exact List.mem_append_right _ List.mem_cons_self

theorem bounds_ofValues (bounds values : List UInt64) :
    (ofValues bounds values).bounds = bounds := by
  induction values using List.reverseRecOn with
  | nil => rfl
  | append_singleton values v ih => rw [ofValues_concat, bounds_observe, ih]

/-- After any values a histogram has counted them. -/
theorem tallied_ofValues (bounds values : List UInt64) :
    (ofValues bounds values).Tallied values := by
  induction values using List.reverseRecOn with
  | nil => exact tallied_withBounds bounds
  | append_singleton values v ih =>
    rw [ofValues_concat]
    exact ih.observe v

namespace Tallied

theorem length_counts (T : h.Tallied values) : h.counts.length = h.bounds.length + 1 := by
  rw [T.counts, List.length_map, List.length_range]

/-- Fewer than 2^64 values are counted exactly. -/
theorem toNat_count (T : h.Tallied values) (few : values.length < 2 ^ 64) :
    h.count.toNat = values.length := by
  rw [T.count]
  exact UInt64.toNat_ofNat_of_lt' few

/-- So are those of every bucket. -/
theorem toNat_counts (T : h.Tallied values) (few : values.length < 2 ^ 64) :
    h.counts.map UInt64.toNat = (List.range (h.bounds.length + 1)).map fun i =>
      values.countP (bucketOf h.bounds · = i) := by
  rw [T.counts, List.map_map]
  refine List.map_congr_left fun i _ => ?_
  exact UInt64.toNat_ofNat_of_lt' (List.countP_le_length.trans_lt few)

/-- The first buckets together have counted the values that go to one of them. -/
theorem sum_take_counts (T : h.Tallied values) (few : values.length < 2 ^ 64) {n : Nat}
    (hn : n ≤ h.bounds.length + 1) :
    ((h.counts.take n).map UInt64.toNat).sum = values.countP (bucketOf h.bounds · < n) := by
  rw [List.map_take, T.toNat_counts few, ← List.map_take, List.take_range, Nat.min_eq_left hn,
    sum_countP_eq]

/-- All buckets together have counted all values. -/
theorem sum_counts (T : h.Tallied values) (few : values.length < 2 ^ 64) :
    (h.counts.map UInt64.toNat).sum = values.length := by
  have every : ∀ v ∈ values, decide (bucketOf h.bounds v < h.bounds.length + 1) = true :=
    fun v _ => decide_eq_true (Nat.lt_succ_of_le (bucketOf_le_length h.bounds v))
  rw [← List.take_length (l := h.counts), T.length_counts, T.sum_take_counts few le_rfl,
    List.countP_eq_length.2 every]

end Tallied

/-! ## Reports -/

/-- A histogram shows how the given values lie between the given bounds. -/
structure Reports (bounds values : List UInt64) (h : Histogram) : Prop where
  /-- The bounds are the given ones. -/
  sameBounds : h.bounds = bounds
  /-- There is a bucket for every bound, and one more. -/
  length : h.counts.length = bounds.length + 1
  /-- Whatever is observed next, there is a bucket for it. -/
  bucketOf_lt : ∀ v, bucketOf h.bounds v < h.counts.length
  /-- A bucket counts the values that are not above its bound but above all bounds before it. -/
  bucket : ∀ i (_ : i < bounds.length), h.counts[i]?.map UInt64.toNat =
    some (values.countP fun v => v ≤ bounds[i] ∧ ∀ j (_ : j < i), bounds[j] < v)
  /-- The last bucket counts the values that are above all bounds. -/
  overflow : h.counts.getLast?.map UInt64.toNat =
    some (values.countP fun v => bounds.all (· < v))
  /-- The buckets up to a bound together count the values that are not above it. -/
  upTo : ∀ i (_ : i < bounds.length),
    ((h.counts.take (i + 1)).map UInt64.toNat).sum = values.countP (· ≤ bounds[i])
  /-- All buckets together count as many values as were observed. -/
  total : (h.counts.map UInt64.toNat).sum = h.count.toNat
  /-- None is forgotten. -/
  count : h.count.toNat = values.length
  /-- No value is above the largest. -/
  le_max : ∀ v ∈ values, v ≤ h.max
  /-- The largest is one of the values, or zero if there are none. -/
  max_mem : h.max ∈ values ∨ values = [] ∧ h.max = 0
  /-- The values are summed up modulo 2^64. -/
  sum : h.sum.toNat = (values.map UInt64.toNat).sum % 2 ^ 64
  /-- In any other order they lead to the same histogram. -/
  order : ∀ values' : List UInt64, values'.Perm values → ofValues bounds values' = h

/-- After fewer than 2^64 values, a histogram with ascending bounds shows how they lie between
them. -/
theorem reports_ofValues (ascending : bounds.Pairwise (· ≤ ·)) (few : values.length < 2 ^ 64) :
    Reports bounds values (ofValues bounds values) := by
  have T := tallied_ofValues bounds values
  have same := bounds_ofValues bounds values
  have length := T.length_counts
  have counts := T.toNat_counts few
  rw [same] at length counts
  refine ⟨same, length, fun v => ?_, fun i hi => ?_, ?_, fun i hi => ?_, ?_, T.toNat_count few,
    T.le_max, T.max_mem, ?_, fun values' p => ofValues_perm p⟩
  · rw [same, length]
    exact Nat.lt_succ_of_le (bucketOf_le_length bounds v)
  · rw [← List.getElem?_map, counts, List.getElem?_map, List.getElem?_range (by omega)]
    simp only [bucketOf_eq_iff hi, Option.map_some]
  · rw [← List.getLast?_map, counts, List.range_succ, List.map_append, List.map_singleton,
      List.getLast?_concat]
    simp only [bucketOf_eq_length_iff, Bool.decide_eq_true]
  · -- Only here do the bounds have to ascend.
    rw [T.sum_take_counts few (by rw [same]; omega), same]
    simp only [Nat.lt_succ_iff, bucketOf_le_iff ascending hi]
  · rw [T.sum_counts few, T.toNat_count few]
  · rw [T.sum]
    exact UInt64.toNat_ofNat'

/-- Two equal bounds, values at the bounds, and a sum that wraps. -/
theorem reports_of_equal_bounds :
    ([10, 10, 100] : List UInt64).Pairwise (· ≤ ·) ∧
      ([10, 5, 101, 100, 0xFFFFFFFFFFFFFFFF, 11] : List UInt64).length < 2 ^ 64 ∧
      Reports [10, 10, 100] [10, 5, 101, 100, 0xFFFFFFFFFFFFFFFF, 11]
        ⟨[10, 10, 100], [2, 0, 2, 2], 226, 6, 0xFFFFFFFFFFFFFFFF⟩ := by
  have ascending : ([10, 10, 100] : List UInt64).Pairwise (· ≤ ·) := by decide
  have few : ([10, 5, 101, 100, 0xFFFFFFFFFFFFFFFF, 11] : List UInt64).length < 2 ^ 64 := by
    decide
  exact ⟨ascending, few, reports_ofValues ascending few⟩

/-- The bounds that are used if none are given ascend. -/
example : standard.bounds.Pairwise (· ≤ ·) := by decide

end Histogram

end HybridTM
