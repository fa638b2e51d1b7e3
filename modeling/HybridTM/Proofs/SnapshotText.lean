import HybridTM.Metrics.Format
import HybridTM.Proofs.Excerpts
import HybridTM.Proofs.Numerals

/-!
# Reports as text

A report is written over several lines, with all of its fields. The text is always one that can be
read as a value, whatever the name of the mode has in it and whatever the means are
(`MetricsSnapshot.writable_toJson`), and every count comes back as it was, for no count goes through
a float. A mean does: it comes back if its decimal is read as the same number
(`CostSummary.MeanReadsBack`), and nothing else stands between a report and what is read from its
text (`MetricsSnapshot.parse?_render`). So the text of a report is read as the same report just if
the means of its costs are read back (`MetricsSnapshot.parse?_render_eq_some_iff`).
-/

set_option autoImplicit false

namespace HybridTM

namespace Json

theorem text?_ofText (text : String) : text? (ofText text) = some text := by
  simp [text?, ofText]

theorem mapM_word?_ofWord (counts : List UInt64) :
    (counts.map ofWord).mapM word? = some counts := by
  induction counts with
  | nil => rfl
  | cons n counts ih => simp [List.mapM_cons, word?_ofWord, ih]

section Floats

open Float.Model

/-- Bits with a smaller exponent than the largest are those of zero or of a finite number. -/
theorem isFinite_unpack {b : BitVec 64}
    (h : @UnpackedFloat.unpackExponent Format.binary64 b ≠ -1#11) :
    (UnpackedFloat.unpack Format.binary64 b).isFinite = true := by
  delta UnpackedFloat.unpack
  dsimp only
  rw [if_neg h]
  by_cases hexponent : @UnpackedFloat.unpackExponent Format.binary64 b = 0#11
  · rw [if_pos hexponent]
    by_cases hmantissa : @UnpackedFloat.unpackMantissa Format.binary64 b = 0#52
    · rw [dif_pos hmantissa]
      rfl
    · rw [dif_neg hmantissa]
      rfl
  · rw [if_neg hexponent]
    rfl

/-- What is not finite is written as `null`. -/
theorem ofFloat_of_not_isFinite {x : Float} (h : x.isFinite = false) : ofFloat x = .null := by
  have hexponent : @UnpackedFloat.unpackExponent Format.binary64 x.toBits.toBitVec = -1#11 := by
    by_contra hne
    exact Bool.noConfusion (h.symm.trans (isFinite_unpack hne))
  have hbits : x.toBits.toNat / hiddenBit % 2048 = 2047 := by
    have hnat := congrArg BitVec.toNat hexponent
    simpa [UnpackedFloat.unpackExponent, hiddenBit, Nat.shiftRight_eq_div_pow] using hnat
  rw [ofFloat, ofDoubleBits, hbits, if_pos rfl]

end Floats

namespace Fields

variable {rest : List (String × Json)} {name other : String} {v : Json}

@[simp]
theorem find?_cons_self : find? ⟨(name, v) :: rest, false⟩ name = some v := by
  rw [find?, List.lookup_cons_self]

@[simp]
theorem find?_cons_of_ne (h : name ≠ other) :
    find? ⟨(other, v) :: rest, false⟩ name = find? ⟨rest, false⟩ name := by
  simp [find?, List.lookup_cons, beq_false_of_ne h]

end Fields

end Json

open Json

/-! ## Counts -/

theorem CommitCounts.ofJson?_toJson (c : CommitCounts) : ofJson? c.toJson = some c := by
  rw [ofJson?, toJson, fields?_record (by simp) (by simp [fieldNames])]
  simp [Fields.required, word?_ofWord]

theorem AbortCounts.ofJson?_toJson (a : AbortCounts) : ofJson? a.toJson = some a := by
  rw [ofJson?, toJson, fields?_record (by simp) (by simp [fieldNames])]
  simp [Fields.required, word?_ofWord]

theorem ModeActivity.ofJson?_toJson (m : ModeActivity) : ofJson? m.toJson = some m := by
  rw [ofJson?, toJson, fields?_record (by simp) (by simp [fieldNames])]
  simp [Fields.required, word?_ofWord, text?_ofText]

theorem CommitCounts.writable_toJson (c : CommitCounts) : c.toJson.Writable := by
  refine writable_record ?_
  simp [writable_ofWord]

theorem AbortCounts.writable_toJson (a : AbortCounts) : a.toJson.Writable := by
  refine writable_record ?_
  simp [writable_ofWord]

theorem ModeActivity.writable_toJson (m : ModeActivity) : m.toJson.Writable := by
  refine writable_record ?_
  simp [writable_ofWord, writable_ofText]

/-! ## Costs -/

namespace CostSummary

/-- The mean is read back from the text that is written for it. -/
def MeanReadsBack (c : CostSummary) : Prop :=
  (parse? (ofFloat c.mean).compact).bind float? = some c.mean

/-- The summary with the mean that is read. -/
def reread (c : CostSummary) : Option CostSummary :=
  (ofFloat c.mean).float?.map fun mean => { c with mean }

theorem ofJson?_toJson (c : CostSummary) : ofJson? c.toJson = c.reread := by
  have hbuckets : buckets? (.array (c.buckets.map ofWord)) = some c.buckets :=
    mapM_word?_ofWord c.buckets
  rw [ofJson?, toJson, fields?_record (by simp) (by simp [fieldNames]), reread]
  cases hmean : (ofFloat c.mean).float? <;>
    simp [Fields.required, word?_ofWord, hbuckets, hmean]

theorem writable_toJson (c : CostSummary) : c.toJson.Writable := by
  have hbuckets : Writable (.array (c.buckets.map ofWord)) := by
    refine writable_array fun v hv => ?_
    obtain ⟨n, -, rfl⟩ := List.mem_map.1 hv
    exact writable_ofWord n
  refine writable_record ?_
  simp [writable_ofWord, writable_ofFloat, hbuckets]

theorem meanReadsBack_iff (c : CostSummary) :
    c.MeanReadsBack ↔ (ofFloat c.mean).float? = some c.mean := by
  rw [MeanReadsBack, parse?_compact (writable_ofFloat c.mean), Option.bind_some]

/-- A mean that is read back is finite, since `null` is not read as a number. -/
theorem MeanReadsBack.isFinite {c : CostSummary} (h : c.MeanReadsBack) :
    c.mean.isFinite = true := by
  by_contra hinfinite
  rw [meanReadsBack_iff, ofFloat_of_not_isFinite (Bool.eq_false_iff.2 hinfinite)] at h
  cases h

/-- A summary is the same again if its mean is. -/
theorem reread_eq_some_iff (c : CostSummary) : c.reread = some c ↔ c.MeanReadsBack := by
  rw [meanReadsBack_iff, reread, Option.map_eq_some_iff]
  constructor
  · rintro ⟨mean, hmean, hc⟩
    rw [hmean, ← congrArg CostSummary.mean hc]
  · intro hmean
    exact ⟨c.mean, hmean, rfl⟩

end CostSummary

namespace MetricsSnapshot

/-- A cost that may be absent, with the mean that is read. -/
def rereadCost : Option CostSummary → Option (Option CostSummary)
  | none => some none
  | some c => c.reread.map some

/-- An absent cost is written as `null` and a cost is not. -/
theorem optional_cost {f : Fields} {name : String} (cost : Option CostSummary)
    (h : f.find? name = some (costToJson cost)) :
    f.optional name CostSummary.ofJson? = rereadCost cost := by
  rw [Fields.optional, h]
  cases cost with
  | none => rfl
  | some c =>
    rw [rereadCost, ← c.ofJson?_toJson]
    rfl

theorem writable_costToJson (cost : Option CostSummary) : (costToJson cost).Writable := by
  cases cost with
  | none => exact writable_null
  | some c => exact c.writable_toJson

/-- Any report can be written. -/
theorem writable_toJson (s : MetricsSnapshot) : s.toJson.Writable := by
  refine writable_record ?_
  simp [CommitCounts.writable_toJson, AbortCounts.writable_toJson, ModeActivity.writable_toJson,
    writable_ofWord, writable_costToJson]

/-- What is read from the text of a report: the report, with the means that are read. -/
theorem parse?_render (s : MetricsSnapshot) :
    parse? s.render = (rereadCost s.hardwareCost).bind fun hardwareCost =>
      (rereadCost s.softwareCost).map fun softwareCost =>
        { s with hardwareCost, softwareCost } := by
  have htext : Json.parse? s.render = some s.toJson := parse?_pretty s.writable_toJson
  rw [parse?, htext, Option.bind_eq_bind, Option.bind_some, ofJson?, toJson,
    fields?_record (by simp) (by simp [fieldNames])]
  -- The counts are read as they are, so only the two costs are left.
  simp only [Fields.required, Option.bind_eq_bind, Option.bind_some, ne_eq, String.reduceEq,
    not_false_eq_true, Fields.find?_cons_self, Fields.find?_cons_of_ne,
    CommitCounts.ofJson?_toJson, AbortCounts.ofJson?_toJson, ModeActivity.ofJson?_toJson,
    word?_ofWord]
  rw [optional_cost s.hardwareCost (by simp),
    optional_cost s.softwareCost (by simp)]
  cases rereadCost s.hardwareCost <;> cases rereadCost s.softwareCost <;> rfl

/-- A cost that may be absent is the same again if the mean of a present one is. -/
theorem rereadCost_eq_some_iff (cost : Option CostSummary) :
    rereadCost cost = some cost ↔ ∀ c, cost = some c → c.MeanReadsBack := by
  cases cost with
  | none => simp [rereadCost]
  | some c => simp [rereadCost, ← c.reread_eq_some_iff]

/-- A report is read back from its text just if the mean of each cost in it is read back. -/
theorem parse?_render_eq_some_iff (s : MetricsSnapshot) :
    parse? s.render = some s ↔
      ∀ c, s.hardwareCost = some c ∨ s.softwareCost = some c → c.MeanReadsBack := by
  have hsplit : (∀ c, s.hardwareCost = some c ∨ s.softwareCost = some c → c.MeanReadsBack) ↔
      rereadCost s.hardwareCost = some s.hardwareCost ∧
        rereadCost s.softwareCost = some s.softwareCost := by
    rw [rereadCost_eq_some_iff, rereadCost_eq_some_iff, ← forall_and]
    exact forall_congr' fun c => or_imp
  rw [hsplit, parse?_render, Option.bind_eq_some_iff]
  constructor
  · rintro ⟨hardwareCost, hhardware, hrest⟩
    obtain ⟨softwareCost, hsoftware, hs⟩ := Option.map_eq_some_iff.1 hrest
    -- The report that is read has the costs that are read.
    have hhardwareCost : hardwareCost = s.hardwareCost := congrArg MetricsSnapshot.hardwareCost hs
    have hsoftwareCost : softwareCost = s.softwareCost := congrArg MetricsSnapshot.softwareCost hs
    rw [hhardware, hsoftware, hhardwareCost, hsoftwareCost]
    exact ⟨rfl, rfl⟩
  · rintro ⟨hhardware, hsoftware⟩
    refine ⟨s.hardwareCost, hhardware, ?_⟩
    rw [hsoftware]
    rfl

/-- A report with costs is read back, also if the decimal of a mean is not the mean. -/
theorem parse?_render_of_thirds :
    let cost : CostSummary := { samples := 3, mean := 4 / 3, max := 2, buckets := [2, 1] }
    let s : MetricsSnapshot :=
      { commits := ⟨3, 1, 0, 0, 1⟩, aborts := ⟨0, 0, 0, 0, 18446744073709551615⟩
        mode := ⟨"sw", 1, 0, 0, 0⟩, lockAttempts := 1, hardwareCost := some cost
        softwareCost := none }
    cost.MeanReadsBack ∧ parse? s.render = some s := by
  intro cost s
  have hmean : cost.MeanReadsBack := cost.meanReadsBack_iff.2 (by decide +kernel)
  refine ⟨hmean, (parse?_render_eq_some_iff s).2 ?_⟩
  rintro c (h | h)
  · rwa [← Option.some.inj h]
  · cases h

end MetricsSnapshot

end HybridTM
