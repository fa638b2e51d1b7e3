import HybridTM.Metrics.Tally
import Mathlib.Algebra.BigOperators.Group.List.Basic
import Mathlib.Data.UInt

/-!
# Additions to counters

A counter sums up what is added under its name, whatever else is added in between
(`Metrics.counter_record`), and nothing but an addition other than zero brings one into being
(`Metrics.mem_counters_record`). So the order of additions makes no difference
(`Metrics.amount_perm`), and of additions under different names each one is what its counter grows
by (`Metrics.amount_of_nodup`). A flush is a row of such additions (`Tally.counter_flush_of_mem`).
-/

set_option autoImplicit false

namespace HybridTM

namespace Metrics

/-- What an addition to a counter is to do. -/
structure IsAddition (step : Metrics → String → UInt64 → Metrics) : Prop where
  /-- The counter of its name grows and no other does. -/
  counter : ∀ m name delta other, (step m name delta).counter other =
    if name = other then m.counter name + delta else m.counter other
  /-- Gauges stay as they are. -/
  gauges : ∀ m name delta, (step m name delta).gauges = m.gauges
  /-- So do histograms. -/
  histograms : ∀ m name delta, (step m name delta).histograms = m.histograms

/-- Add to a counter, also if there is nothing to add. -/
def post (m : Metrics) (name : String) (delta : UInt64) : Metrics :=
  { m with counters := m.counters.insert name (m.counter name + delta) }

theorem isAddition_add : IsAddition add where
  counter m name delta other := counter_add m name other delta
  gauges m name delta := by
    unfold add
    split <;> rfl
  histograms m name delta := by
    unfold add
    split <;> rfl

theorem isAddition_post : IsAddition post where
  counter m name delta other := by
    simp only [counter, post, Std.HashMap.getD_insert, beq_iff_eq]
  gauges _ _ _ := rfl
  histograms _ _ _ := rfl

/-- One addition after the other. -/
def record (step : Metrics → String → UInt64 → Metrics) (m : Metrics)
    (posts : List (String × UInt64)) : Metrics :=
  posts.foldl (fun m post => step m post.1 post.2) m

/-- What is added under a name. -/
def amount (name : String) (posts : List (String × UInt64)) : UInt64 :=
  ((posts.filter (·.1 = name)).map Prod.snd).sum

variable {step : Metrics → String → UInt64 → Metrics} {posts : List (String × UInt64)}

/-- A counter sums up what is added under its name. -/
theorem counter_record (A : IsAddition step) (m : Metrics) (posts : List (String × UInt64))
    (name : String) : (record step m posts).counter name = m.counter name + amount name posts := by
  induction posts generalizing m with
  | nil => simp [record, amount]
  | cons post posts ih =>
    have hrest := ih (step m post.1 post.2)
    rw [A.counter] at hrest
    rw [record, List.foldl_cons]
    refine hrest.trans ?_
    by_cases hname : post.1 = name
    · simp [amount, hname, add_assoc]
    · simp [amount, hname]

theorem amount_append (posts posts' : List (String × UInt64)) (name : String) :
    amount name (posts ++ posts') = amount name posts + amount name posts' := by
  simp [amount]

/-- Of additions under different names one counts. -/
theorem amount_of_nodup (nodup : (posts.map Prod.fst).Nodup) {name : String} {n : UInt64}
    (mem : (name, n) ∈ posts) : amount name posts = n := by
  have hfilter : posts.filter (·.1 = name) = [(name, n)] := by
    induction posts with
    | nil => cases mem
    | cons post posts ih =>
      rw [List.map_cons, List.nodup_cons] at nodup
      rcases List.mem_cons.1 mem with rfl | mem
      · -- The name does not occur again.
        have hrest : posts.filter (·.1 = name) = [] :=
          List.filter_eq_nil_iff.2 fun post hpost hname =>
            nodup.1 (List.mem_map.2 ⟨post, hpost, of_decide_eq_true hname⟩)
        rw [List.filter_cons_of_pos (by simp), hrest]
      · have hne : post.1 ≠ name := fun hname =>
          nodup.1 (List.mem_map.2 ⟨_, mem, hname.symm⟩)
        rw [List.filter_cons_of_neg (by simpa using hne), ih nodup.2 mem]
  rw [amount, hfilter]
  simp

theorem gauges_record (A : IsAddition step) (m : Metrics) (posts : List (String × UInt64)) :
    (record step m posts).gauges = m.gauges := by
  induction posts generalizing m with
  | nil => rfl
  | cons post posts ih => exact (ih _).trans (A.gauges m post.1 post.2)

theorem histograms_record (A : IsAddition step) (m : Metrics) (posts : List (String × UInt64)) :
    (record step m posts).histograms = m.histograms := by
  induction posts generalizing m with
  | nil => rfl
  | cons post posts ih => exact (ih _).trans (A.histograms m post.1 post.2)

/-- The order of additions makes no difference. -/
theorem amount_perm {posts' : List (String × UInt64)} (h : posts.Perm posts') (name : String) :
    amount name posts = amount name posts' :=
  ((h.filter _).map _).sum_eq

/-- A counter comes into being with the first addition that is not zero. -/
theorem mem_counters_record (m : Metrics) (posts : List (String × UInt64)) (name : String) :
    name ∈ (record add m posts).counters ↔ name ∈ m.counters ∨ ∃ n ≠ 0, (name, n) ∈ posts := by
  have hadd (m : Metrics) (post : String × UInt64) : name ∈ (m.add post.1 post.2).counters ↔
      name ∈ m.counters ∨ post.2 ≠ 0 ∧ post.1 = name := by
    unfold add
    split
    · next hzero => simp [hzero]
    · next hpos => simp [hpos, Std.HashMap.mem_insert, or_comm]
  induction posts generalizing m with
  | nil => simp [record]
  | cons post posts ih =>
    rw [record, List.foldl_cons]
    refine (ih _).trans ?_
    rw [hadd, or_assoc]
    refine or_congr_right ?_
    constructor
    · rintro (⟨hpos, rfl⟩ | ⟨n, hn, mem⟩)
      · exact ⟨post.2, hpos, List.mem_cons_self⟩
      · exact ⟨n, hn, List.mem_cons_of_mem post mem⟩
    · rintro ⟨n, hn, mem⟩
      rcases List.mem_cons.1 mem with rfl | mem
      · exact Or.inl ⟨hn, rfl⟩
      · exact Or.inr ⟨n, hn, mem⟩

end Metrics

namespace Tally

/-- A flush adds under every name once. -/
theorem nodup_named (t : Tally) : (t.named.map Prod.fst).Nodup := by
  have h : (zero.named.map Prod.fst).Nodup := by decide
  exact h

theorem store_flush (t : Tally) (m : Metrics) :
    (t.flush m).2 = Metrics.record Metrics.add m t.named :=
  rfl

/-- A flush moves each count to the counter of its name. -/
theorem counter_flush_of_mem (t : Tally) (m : Metrics) {name : String} {n : UInt64}
    (mem : (name, n) ∈ t.named) : (t.flush m).2.counter name = m.counter name + n := by
  rw [store_flush, Metrics.counter_record Metrics.isAddition_add,
    Metrics.amount_of_nodup t.nodup_named mem]

/-- It leaves the gauges alone. -/
theorem gauges_flush (t : Tally) (m : Metrics) : (t.flush m).2.gauges = m.gauges := by
  rw [store_flush, Metrics.gauges_record Metrics.isAddition_add]

end Tally

end HybridTM
