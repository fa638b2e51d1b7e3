/-!
# Histograms

A histogram sorts observed values into buckets by inclusive upper bounds; values above
the last bound go to an overflow bucket. Beside the bucket counts it keeps the number of
observations, their sum and the largest. Counts and sum wrap at 64 bits.
-/

namespace HybridTM

/-- A histogram of 64-bit values. -/
structure Histogram where
  /-- The inclusive upper bounds of the buckets, in ascending order. -/
  bounds : List UInt64
  /-- The number of values in each bucket, the overflow bucket last. -/
  counts : List UInt64
  /-- The sum of all values. -/
  sum : UInt64
  /-- The number of values. -/
  count : UInt64
  /-- The largest value, zero if there is none. -/
  max : UInt64
  deriving DecidableEq, Repr

namespace Histogram

/-- A histogram of no values with the given bounds. -/
def withBounds (bounds : List UInt64) : Histogram where
  bounds := bounds
  counts := List.replicate (bounds.length + 1) 0
  sum := 0
  count := 0
  max := 0

/-- A histogram of no values with bounds at the powers of four from 64 to 4194304. -/
def standard : Histogram :=
  withBounds ((List.range 9).map fun k => 4 ^ (k + 3))

/-- The bucket of a value: the first whose bound is not below it, or the overflow
bucket. -/
def bucketOf (bounds : List UInt64) (value : UInt64) : Nat :=
  bounds.findIdx (value ≤ ·)

/-- The overflow bucket is the last one. -/
theorem bucketOf_le_length (bounds : List UInt64) (value : UInt64) :
    bucketOf bounds value ≤ bounds.length :=
  List.findIdx_le_length

/-- The histogram with one more value. -/
def observe (h : Histogram) (value : UInt64) : Histogram where
  bounds := h.bounds
  counts := h.counts.modify (bucketOf h.bounds value) (· + 1)
  sum := h.sum + value
  count := h.count + 1
  max := if h.max < value then value else h.max

@[simp]
theorem bounds_observe (h : Histogram) (value : UInt64) :
    (h.observe value).bounds = h.bounds :=
  rfl

/-- The number of buckets stays as it is. -/
@[simp]
theorem length_counts_observe (h : Histogram) (value : UInt64) :
    (h.observe value).counts.length = h.counts.length :=
  List.length_modify ..

/-- The mean of the values, zero if there is none. -/
def mean (h : Histogram) : Float :=
  if h.count = 0 then 0 else h.sum.toFloat / h.count.toFloat

end Histogram

end HybridTM
