import HybridTM.Proofs.CostSums
import HybridTM.Proofs.Windows

/-!
# Software windows

Between two beginnings of an epoch the software window depends on nothing but how often it was
extended: it is the first window doubled as often, and never larger than the largest
(`Windowed.window`). Fewer commits than that are pending at any time, so that a commit is answered
`stay` unless it is the one that completes the window.

A complete window is judged. The epoch competes with the mean cost of the records from which
hardware was estimated when it began (`rival`); their ticks can be added up, since otherwise it had
not begun. If a region committed among them, the cost is known, a finite number, and the thread
returns to hardware just when the mean of the window is not below it. Otherwise it returns just when
the window is the largest one. This holds after any reports under any settings, valid or not
(`windowed_of`), and no counter of the epoch overflows on the way.
-/

set_option autoImplicit false

namespace HybridTM

/-! ## Epochs in a history -/

namespace CostReport

/-- The epoch made a commit. -/
def isSoftwareCommit : CostReport → Bool
  | .softwareCommit _ => true
  | _ => false

/-- The ticks of a commit of the epoch. -/
def softwareTicks : CostReport → Nat
  | .softwareCommit ticks => ticks.toNat
  | _ => 0

end CostReport

namespace CostEntry

/-- With the entry an epoch begins, or a window is complete. -/
def endsWindow (x : CostEntry) : Bool := x.beginsEpoch || x.verdict.any (· != .stay)

theorem verdict_ofRecord (r : CostReport)
    (result : Except Overflow (Option HardwareSample)) : (ofRecord r result).verdict = none := by
  cases result <;> rfl

end CostEntry

namespace CostHistory

variable (w : List CostEntry) {x : CostEntry}

/-- How often the window was extended since the epoch began. -/
def extensions : Nat :=
  (w.rtakeWhile (!·.beginsEpoch)).countP (·.verdict == some .extend)

/-- The records since the last complete window. -/
def pending : List CostEntry := w.rtakeWhile (!·.endsWindow)

/-- The commits of an epoch. -/
def softwareCommits : Nat := w.countP (·.report.isSoftwareCommit)

/-- Their ticks. -/
def softwareTicks : Nat := (w.map (·.report.softwareTicks)).sum

/-- The mean ticks of the commits of an epoch. The sum stops at the largest 64-bit number. -/
def softwareMean : Float :=
  (UInt64.ofNat (min (softwareTicks w) (2 ^ 64 - 1))).toFloat /
    (UInt64.ofNat (softwareCommits w)).toFloat

/-- The records from which hardware was estimated when the epoch began, none before the first. -/
def rival : List CostEntry := estimated (w.rdropWhile (!·.beginsEpoch))

variable {w}

theorem extensions_concat : extensions (w ++ [x]) = if x.beginsEpoch = true then 0
    else extensions w + if x.verdict = some .extend then 1 else 0 := by
  rw [extensions, countP_rtakeWhile_concat]
  simp only [beq_iff_eq]
  cases x.beginsEpoch <;> rfl

theorem pending_concat :
    pending (w ++ [x]) = if x.endsWindow = true then [] else pending w ++ [x] := by
  rw [pending, List.rtakeWhile_concat]
  cases x.endsWindow <;> rfl

theorem softwareCommits_concat : softwareCommits (w ++ [x]) =
    softwareCommits w + if x.report.isSoftwareCommit = true then 1 else 0 := countP_concat

theorem softwareTicks_concat :
    softwareTicks (w ++ [x]) = softwareTicks w + x.report.softwareTicks := sum_map_concat

theorem rival_concat : rival (w ++ [x]) =
    if x.beginsEpoch = true then estimated (w ++ [x]) else rival w := by
  rw [rival, List.rdropWhile_concat]
  cases x.beginsEpoch <;> rfl

end CostHistory

/-! ## Commits of an epoch -/

namespace Heuristic

variable {h : Heuristic} {mean : Float}

/-- The mean of the window with a commit more. -/
def nextMean (h : Heuristic) (ticks : UInt64) : Float :=
  (addSaturating h.softwareTicks ticks).toFloat / (h.softwareCommits + 1).toFloat

/-- What a commit of the epoch does to a heuristic. -/
inductive Paces (h : Heuristic) (ticks : UInt64) : Verdict → Heuristic → Prop
  /-- The window is not complete. -/
  | stay {h' : Heuristic} (room : h.softwareCommits + 1 < h.softwareWindow)
      (window : h'.softwareWindow = h.softwareWindow)
      (commits : h'.softwareCommits = h.softwareCommits + 1)
      (total : h'.softwareTicks = addSaturating h.softwareTicks ticks)
      (cost : h'.lastHardwareCost = h.lastHardwareCost) : Paces h ticks .stay h'
  /-- The window is complete, and its mean decides. -/
  | complete {h' : Heuristic} {verdict : Verdict}
      (full : h.softwareWindow ≤ h.softwareCommits + 1)
      (judged : h.judge (h.nextMean ticks) = verdict)
      (window : h'.softwareWindow =
        if verdict = .extend then min (h.softwareWindow * 2) h.windowMax else h.softwareWindow)
      (commits : h'.softwareCommits = 0) (total : h'.softwareTicks = 0)
      (cost : h'.lastHardwareCost = h.lastHardwareCost)
      (mean : h'.lastSoftwareMean = some (h.nextMean ticks)) : Paces h ticks verdict h'

theorem paces_recordSoftwareCommit (h : Heuristic) (ticks : UInt64) :
    h.Paces ticks (h.recordSoftwareCommit ticks).1 (h.recordSoftwareCommit ticks).2 := by
  unfold recordSoftwareCommit
  simp only
  split
  · next room => exact .stay room rfl rfl rfl rfl
  · next full =>
    have full := UInt64.not_lt.1 full
    split
    · next judged => exact .complete full judged rfl rfl rfl rfl rfl
    · next other => exact .complete full rfl (if_neg other).symm rfl rfl rfl rfl

/-- A complete window is never answered with `stay`. -/
theorem judge_ne_stay : h.judge mean ≠ .stay := by
  unfold judge
  split_ifs <;> exact nofun

/-- With a known cost the mean has to be below it. -/
theorem judge_of_known (known : h.lastHardwareCost.isFinite = true) :
    h.judge mean = .returnToHardware ↔ h.lastHardwareCost ≤ mean := by
  rw [judge, if_pos known]
  split_ifs with hle
  · exact iff_of_true rfl hle
  · exact iff_of_false not_false hle

/-- Without one the window has to be smaller than the largest. -/
theorem judge_of_unknown (unknown : h.lastHardwareCost.isFinite = false) :
    h.judge mean = .returnToHardware ↔ h.windowMax ≤ h.softwareWindow := by
  rw [judge, if_neg (ne_true_of_eq_false unknown)]
  split_ifs with hle
  · exact iff_of_true rfl hle
  · exact iff_of_false not_false hle

/-- Reports of hardware leave the epoch alone. -/
structure SameEpoch (h h' : Heuristic) : Prop where
  /-- The window is the same. -/
  window : h'.softwareWindow = h.softwareWindow
  /-- The commits are. -/
  commits : h'.softwareCommits = h.softwareCommits
  /-- Their ticks are. -/
  total : h'.softwareTicks = h.softwareTicks
  /-- The cost that it competes with is. -/
  cost : h'.lastHardwareCost = h.lastHardwareCost

theorem SameEpoch.takeSample {h' : Heuristic} (S : h.SameEpoch h') :
    h.SameEpoch h'.takeSample.2 := by
  obtain ⟨window, commits, total, cost⟩ := S
  unfold Heuristic.takeSample
  split
  · split <;> exact ⟨window, commits, total, cost⟩
  · exact ⟨window, commits, total, cost⟩

end Heuristic

namespace CostHistory

variable {c : HybridConfig} {H : CostHistory}

section

variable (H : CostHistory) (ticks : UInt64)

/-- A commit of the epoch is answered with a verdict, which says what it does. -/
theorem exists_paces : ∃ verdict, (H.answer (.softwareCommit ticks)).verdict = some verdict ∧
    H.heuristic.Paces ticks verdict (H.add (.softwareCommit ticks)).heuristic :=
  ⟨_, rfl, H.heuristic.paces_recordSoftwareCommit ticks⟩

theorem beginsEpoch_answer {r : CostReport} (h : r.isEpoch = false) :
    (H.answer r).beginsEpoch = false := by
  rw [CostEntry.beginsEpoch, answer, Heuristic.report_report, h]
  rfl

theorem extensions_add_commit : extensions (H.add (.softwareCommit ticks)).entries =
    extensions H.entries +
      if (H.answer (.softwareCommit ticks)).verdict = some .extend then 1 else 0 :=
  extensions_concat

theorem pending_add_commit {verdict : Verdict}
    (h : (H.answer (.softwareCommit ticks)).verdict = some verdict) :
    pending (H.add (.softwareCommit ticks)).entries =
      if verdict = .stay then pending H.entries ++ [H.answer (.softwareCommit ticks)] else [] := by
  have hends : (H.answer (.softwareCommit ticks)).endsWindow = (verdict != .stay) := by
    rw [CostEntry.endsWindow, h]
    rfl
  rw [add, pending_concat, hends]
  cases verdict <;> rfl

theorem rival_add_commit : rival (H.add (.softwareCommit ticks)).entries = rival H.entries :=
  rival_concat

theorem softwareCommits_pending_commit :
    softwareCommits (pending H.entries ++ [H.answer (.softwareCommit ticks)]) =
      softwareCommits (pending H.entries) + 1 := softwareCommits_concat

theorem softwareTicks_pending_commit :
    softwareTicks (pending H.entries ++ [H.answer (.softwareCommit ticks)]) =
      softwareTicks (pending H.entries) + ticks.toNat := softwareTicks_concat

end

/-- The software side of a heuristic is what its history says. -/
structure Paced (c : HybridConfig) (H : CostHistory) : Prop where
  /-- The hardware side is. -/
  recorded : Recorded c H
  /-- The window depends on the extensions. -/
  window : H.heuristic.softwareWindow.toNat =
    min (c.firstWindow * 2 ^ extensions H.entries) c.largestWindow
  /-- The pending commits are counted. -/
  commits : H.heuristic.softwareCommits.toNat = softwareCommits (pending H.entries)
  /-- They do not complete the window. -/
  pending_lt : softwareCommits (pending H.entries) < H.heuristic.softwareWindow.toNat
  /-- Their ticks are summed up. -/
  total : H.heuristic.softwareTicks.toNat =
    min (softwareTicks (pending H.entries)) (2 ^ 64 - 1)
  /-- The cost to compete with is what came of the records from which hardware was estimated. -/
  outcome : ∃ estimate, IsOutcome c (rival H.entries) (.ok estimate) ∧
    H.heuristic.lastHardwareCost = estimate.meanCost

namespace Paced

theorem init (c : HybridConfig) : Paced c (init c) where
  recorded := .init c
  window := by
    show (Heuristic.new c).windowInitial.toNat = min (c.firstWindow * 2 ^ 0) c.largestWindow
    rw [(Heuristic.keepsTo_new c).first, pow_zero, mul_one, min_eq_left c.firstWindow_le]
  commits := rfl
  pending_lt := by
    show 0 < (Heuristic.new c).windowInitial.toNat
    rw [(Heuristic.keepsTo_new c).first]
    exact c.firstWindow_pos
  total := rfl
  outcome := by
    have none : IsOutcome c (rival []) (SampleWindow.toSample {}) :=
      ⟨⟨{}, SampleWindow.tallies_nil, rfl⟩, fun _ => c.rate_pos.le, fun _ => c.rate_pos.le⟩
    exact ⟨_, none, rfl⟩

theorem window_le (P : Paced c H) : H.heuristic.softwareWindow.toNat ≤ c.largestWindow :=
  P.window.trans_le (min_le_right ..)

theorem window_lt (P : Paced c H) : H.heuristic.softwareWindow.toNat < 2 ^ 32 :=
  P.window_le.trans_lt c.largestWindow_lt

/-- There is room for another commit in the counter. -/
theorem toNat_succ_commits (P : Paced c H) :
    (H.heuristic.softwareCommits + 1).toNat = softwareCommits (pending H.entries) + 1 := by
  have := P.pending_lt
  have := P.window_lt
  rw [UInt64.toNat_add, P.commits]
  exact Nat.mod_eq_of_lt (show _ + 1 < 2 ^ 64 by omega)

/-- And for twice the window. -/
theorem toNat_double_window (P : Paced c H) :
    (H.heuristic.softwareWindow * 2).toNat = H.heuristic.softwareWindow.toNat * 2 := by
  have := P.window_lt
  rw [UInt64.toNat_mul]
  exact Nat.mod_eq_of_lt (show H.heuristic.softwareWindow.toNat * 2 < 2 ^ 64 by omega)

/-- An extended window is the first one doubled once more. -/
theorem toNat_extended (P : Paced c H) :
    (min (H.heuristic.softwareWindow * 2) H.heuristic.windowMax).toNat =
      min (c.firstWindow * 2 ^ (extensions H.entries + 1)) c.largestWindow := by
  rw [UInt64.toNat_min, P.toNat_double_window, P.recorded.keeps.largest, P.window, pow_succ,
    ← mul_assoc]
  omega

/-- A report that leaves the epoch alone keeps it. -/
theorem add_same (P : Paced c H) {r : CostReport} (epoch : (H.answer r).beginsEpoch = false)
    (software : r.isSoftwareCommit = false) (ticks : r.softwareTicks = 0)
    (same : H.heuristic.SameEpoch (H.add r).heuristic) (silent : (H.answer r).verdict = none) :
    Paced c (H.add r) := by
  have hreport : (H.answer r).report = r := Heuristic.report_report ..
  have hextensions : extensions (H.add r).entries = extensions H.entries := by
    rw [add, extensions_concat, epoch, silent]
    rfl
  have hpending : pending (H.add r).entries = pending H.entries ++ [H.answer r] := by
    rw [add, pending_concat, CostEntry.endsWindow, epoch, silent]
    rfl
  have hrival : rival (H.add r).entries = rival H.entries := by
    rw [add, rival_concat, epoch]
    rfl
  have hcommits : softwareCommits (pending (H.add r).entries) =
      softwareCommits (pending H.entries) := by
    rw [hpending, softwareCommits_concat, hreport, software]
    rfl
  have hticks : softwareTicks (pending (H.add r).entries) =
      softwareTicks (pending H.entries) := by
    rw [hpending, softwareTicks_concat, hreport, ticks]
    rfl
  constructor
  · exact P.recorded.add r
  · rw [same.window, hextensions]
    exact P.window
  · rw [same.commits, hcommits]
    exact P.commits
  · rw [same.window, hcommits]
    exact P.pending_lt
  · rw [same.total, hticks]
    exact P.total
  · rw [same.cost, hrival]
    exact P.outcome

/-- So does an epoch that does not begin. -/
theorem add_refused (P : Paced c H) {overflow : Overflow}
    (h : H.heuristic.beginEpoch = .error overflow) : Paced c (H.add .epoch) := by
  have hreport : H.heuristic.report .epoch =
      ({ report := .epoch, overflow := some overflow }, H.heuristic) := by
    rw [Heuristic.report, h]
  have hanswer : H.answer .epoch = { report := .epoch, overflow := some overflow } :=
    congrArg Prod.fst hreport
  refine P.add_same ?_ rfl rfl ?_ ?_
  · rw [hanswer]
    rfl
  · show H.heuristic.SameEpoch (H.heuristic.report .epoch).2
    rw [hreport]
    exact ⟨rfl, rfl, rfl, rfl⟩
  · rw [hanswer]

/-- So does the beginning of an epoch. -/
theorem add_epoch (P : Paced c H) {begun : Heuristic} (h : H.heuristic.beginEpoch = .ok begun) :
    Paced c (H.add .epoch) := by
  have R := P.recorded.add .epoch
  have hreport : H.heuristic.report .epoch = ({ report := .epoch }, begun) := by
    rw [Heuristic.report, h]
  have hadd : H.add .epoch = ⟨begun, H.entries ++ [{ report := .epoch }]⟩ := by
    rw [CostHistory.add, answer, hreport]
  rw [hadd] at R ⊢
  have hextensions : extensions (H.entries ++ [{ report := .epoch }]) = 0 := extensions_concat
  have hpending : pending (H.entries ++ [{ report := .epoch }]) = [] := pending_concat
  have hrival : rival (H.entries ++ [{ report := .epoch }]) =
      estimated (H.entries ++ [{ report := .epoch }]) := rival_concat
  obtain ⟨estimate, hestimate, rfl⟩ := exists_of_map_eq_ok h
  have hwindow : H.heuristic.windowInitial.toNat = c.firstWindow := P.recorded.keeps.first
  constructor
  · exact R
  · rw [hextensions, pow_zero, mul_one, min_eq_left c.firstWindow_le]
    exact hwindow
  · rw [hpending]
    rfl
  · rw [hpending]
    exact c.firstWindow_pos.trans_eq hwindow.symm
  · rw [hpending]
    rfl
  · rw [hrival]
    have O : IsOutcome c (estimated (H.entries ++ [{ report := .epoch }])) H.heuristic.estimate :=
      R.estimate
    rw [hestimate] at O
    exact ⟨estimate, O, rfl⟩

/-- So does a commit that leaves the window incomplete. -/
theorem add_stay (P : Paced c H) {ticks : UInt64}
    (answered : (H.answer (.softwareCommit ticks)).verdict = some .stay)
    (paces : H.heuristic.Paces ticks .stay (H.add (.softwareCommit ticks)).heuristic) :
    Paced c (H.add (.softwareCommit ticks)) := by
  have hextensions := H.extensions_add_commit ticks
  have hpending : pending (H.add (.softwareCommit ticks)).entries =
      pending H.entries ++ [H.answer (.softwareCommit ticks)] := H.pending_add_commit ticks answered
  have hrival := H.rival_add_commit ticks
  have hsucc := P.toNat_succ_commits
  rw [answered, if_neg (by decide), Nat.add_zero] at hextensions
  cases paces with
  | complete full judged => exact absurd judged Heuristic.judge_ne_stay
  | stay room window commits total cost =>
    constructor
    · exact P.recorded.add _
    · rw [window, hextensions]
      exact P.window
    · rw [commits, hpending, softwareCommits_pending_commit]
      exact hsucc
    · rw [window, hpending, softwareCommits_pending_commit, ← hsucc]
      exact UInt64.lt_iff_toNat_lt.1 room
    · rw [total, hpending, softwareTicks_pending_commit]
      exact SampleWindow.toNat_addSaturating_min P.total
    · rw [cost, hrival]
      exact P.outcome

/-- And one that completes it, whether the window is extended or not. -/
theorem add_complete (P : Paced c H) {ticks : UInt64} {verdict : Verdict} (ends : verdict ≠ .stay)
    (answered : (H.answer (.softwareCommit ticks)).verdict = some verdict)
    (paces : H.heuristic.Paces ticks verdict (H.add (.softwareCommit ticks)).heuristic) :
    Paced c (H.add (.softwareCommit ticks)) := by
  have hextensions := H.extensions_add_commit ticks
  have hpending : pending (H.add (.softwareCommit ticks)).entries = [] :=
    (H.pending_add_commit ticks answered).trans (if_neg ends)
  have hrival := H.rival_add_commit ticks
  rw [answered] at hextensions
  cases paces with
  | stay => exact absurd rfl ends
  | complete full judged window commits total cost mean =>
    have hwindow : (H.add (.softwareCommit ticks)).heuristic.softwareWindow.toNat = min
        (c.firstWindow * 2 ^ extensions (H.add (.softwareCommit ticks)).entries)
        c.largestWindow := by
      rw [window, hextensions]
      simp only [Option.some.injEq]
      split
      · exact P.toNat_extended
      · exact P.window
    constructor
    · exact P.recorded.add _
    · exact hwindow
    · rw [commits, hpending]
      rfl
    · rw [hwindow, hpending]
      exact lt_min (Nat.mul_pos c.firstWindow_pos (Nat.two_pow_pos _))
        (c.firstWindow_pos.trans_le c.firstWindow_le)
    · rw [total, hpending]
      rfl
    · rw [cost, hrival]
      exact P.outcome

theorem add_softwareCommit (P : Paced c H) (ticks : UInt64) :
    Paced c (H.add (.softwareCommit ticks)) := by
  obtain ⟨verdict, answered, paces⟩ := H.exists_paces ticks
  by_cases hstay : verdict = .stay
  · subst hstay
    exact P.add_stay answered paces
  · exact P.add_complete hstay answered paces

/-- Every report keeps it. -/
theorem add (P : Paced c H) (r : CostReport) : Paced c (H.add r) := by
  cases r with
  | hardwareCommit ticks =>
    exact P.add_same (H.beginsEpoch_answer rfl) rfl rfl
      (Heuristic.SameEpoch.takeSample ⟨rfl, rfl, rfl, rfl⟩) (CostEntry.verdict_ofRecord ..)
  | hardwareAbort ticks abort =>
    exact P.add_same (H.beginsEpoch_answer rfl) rfl rfl
      (Heuristic.SameEpoch.takeSample ⟨rfl, rfl, rfl, rfl⟩) (CostEntry.verdict_ofRecord ..)
  | softwareCommit ticks => exact P.add_softwareCommit ticks
  | epoch =>
    cases hbegin : H.heuristic.beginEpoch with
    | ok begun => exact P.add_epoch hbegin
    | error overflow => exact P.add_refused hbegin

/-- The cost is computed from what the records accumulate. -/
theorem exists_tally (P : Paced c H) : ∃ t : SampleWindow, t.Tallies (rival H.entries) ∧
    t.meanCost = .ok H.heuristic.lastHardwareCost ∧
      (Fits (rival H.entries) → CostHistory.commits (rival H.entries) ≤ c.rate) := by
  obtain ⟨estimate, ⟨⟨t, T, houtcome⟩, commits_le, -⟩, hcost⟩ := P.outcome
  refine ⟨t, T, ?_, commits_le⟩
  rw [← t.toSample_map_meanCost, ← houtcome, hcost]
  rfl

/-- The ticks of the records could be added up when the epoch began. -/
theorem fits (P : Paced c H) (small : CostHistory.commits (rival H.entries) < 2 ^ 64) :
    Fits (rival H.entries) := by
  obtain ⟨t, T, hmean, -⟩ := P.exists_tally
  by_contra hfits
  exact hfits (T.fits_of_meanCost (T.commits_ne_zero small hfits) hmean)

/-- Their commits are not more than complete a sample, and their mean cost is competed with. -/
theorem cost (P : Paced c H) (fits : Fits (rival H.entries)) :
    CostHistory.commits (rival H.entries) ≤ c.rate ∧
      H.heuristic.lastHardwareCost = costOf (rival H.entries) := by
  obtain ⟨t, T, hmean, commits_le⟩ := P.exists_tally
  have commits_le := commits_le fits
  have rate_lt := c.rate_lt
  rw [T.meanCost_eq (by omega) fits] at hmean
  exact ⟨commits_le, (Except.ok.inj hmean).symm⟩

/-- A known cost is a quotient of two numbers. -/
theorem exists_quotient (P : Paced c H) (known : H.heuristic.lastHardwareCost.isFinite = true) :
    ∃ a b : UInt64, b ≠ 0 ∧ H.heuristic.lastHardwareCost = a.toFloat / b.toFloat := by
  obtain ⟨t, T, hmean, -⟩ := P.exists_tally
  unfold SampleWindow.meanCost at hmean
  split at hmean
  · rw [← Except.ok.inj hmean, infiniteCost_isFinite] at known
    cases known
  · next hpos =>
    obtain ⟨sum, -, hquotient⟩ := exists_of_map_eq_ok hmean
    exact ⟨sum, t.commits, hpos, hquotient.symm⟩

/-- The cost is known just when a region committed among the records. -/
theorem isFinite_iff (P : Paced c H) (fits : Fits (rival H.entries)) :
    H.heuristic.lastHardwareCost.isFinite = true ↔
      CostHistory.commits (rival H.entries) ≠ 0 := by
  obtain ⟨commits_le, hcost⟩ := P.cost fits
  have rate_lt := c.rate_lt
  rw [hcost, costOf]
  split
  · next hzero =>
    rw [infiniteCost_isFinite]
    exact iff_of_false Bool.false_ne_true (not_not.2 hzero)
  · next hpos =>
    exact ⟨fun _ => hpos, fun _ => Binary64.isFinite_div _ (ofNat_ne_zero hpos (by omega))⟩

end Paced

theorem paced_of (c : HybridConfig) (reports : List CostReport) : Paced c (of c reports) :=
  of_induction (Paced.init c) (fun _ r P => P.add r) reports

/-! ## The law of windows -/

/-- How a heuristic paces its software epochs. -/
structure Windowed (c : HybridConfig) (H : CostHistory) : Prop where
  /-- The window is the first one doubled with every extension, up to the largest. -/
  window : H.heuristic.softwareWindow.toNat =
    min (c.firstWindow * 2 ^ extensions H.entries) c.largestWindow
  /-- Fewer commits than that are pending. -/
  pending_lt : softwareCommits (pending H.entries) < H.heuristic.softwareWindow.toNat
  /-- They are counted. -/
  counted : H.heuristic.softwareCommits.toNat = softwareCommits (pending H.entries)
  /-- Neither one more commit nor twice the window overflows. -/
  exact : (H.heuristic.softwareCommits + 1).toNat = H.heuristic.softwareCommits.toNat + 1 ∧
    (H.heuristic.softwareWindow * 2).toNat = H.heuristic.softwareWindow.toNat * 2
  /-- The next commit is answered `stay` as long as it leaves the window incomplete. -/
  stay : ∀ ticks, softwareCommits (pending H.entries) + 1 < H.heuristic.softwareWindow.toNat →
    (H.answer (.softwareCommit ticks)).verdict = some .stay
  /-- The one that completes it is answered otherwise. -/
  complete : ∀ ticks,
    softwareCommits (pending H.entries) + 1 = H.heuristic.softwareWindow.toNat →
    (H.answer (.softwareCommit ticks)).verdict = some .extend ∨
      (H.answer (.softwareCommit ticks)).verdict = some .returnToHardware
  /-- Its mean is then kept. -/
  mean : ∀ ticks, softwareCommits (pending H.entries) + 1 = H.heuristic.softwareWindow.toNat →
    (H.add (.softwareCommit ticks)).heuristic.lastSoftwareMean =
      some (softwareMean (pending H.entries ++ [H.answer (.softwareCommit ticks)]))
  /-- The ticks of the records from which hardware was estimated could be added up. -/
  fits : commits (rival H.entries) < 2 ^ 64 → Fits (rival H.entries)
  /-- The cost to compete with is that of these records. -/
  cost : Fits (rival H.entries) → H.heuristic.lastHardwareCost = costOf (rival H.entries)
  /-- It is known just when a region committed among them. -/
  known_iff : Fits (rival H.entries) →
    (H.heuristic.lastHardwareCost.isFinite = true ↔ commits (rival H.entries) ≠ 0)
  /-- Without a known cost, hardware is tried again after a window of the largest size. -/
  unknown : ∀ ticks, softwareCommits (pending H.entries) + 1 = H.heuristic.softwareWindow.toNat →
    H.heuristic.lastHardwareCost.isFinite = false →
    ((H.answer (.softwareCommit ticks)).verdict = some .returnToHardware ↔
      H.heuristic.softwareWindow.toNat = c.largestWindow)
  /-- With a known cost it is tried again when the mean of the window is not below it. -/
  known : ∀ ticks, softwareCommits (pending H.entries) + 1 = H.heuristic.softwareWindow.toNat →
    H.heuristic.lastHardwareCost.isFinite = true →
    ((H.answer (.softwareCommit ticks)).verdict = some .returnToHardware ↔
      ¬ softwareMean (pending H.entries ++ [H.answer (.softwareCommit ticks)]) <
        H.heuristic.lastHardwareCost)

namespace Paced

theorem nextMean_eq (P : Paced c H) (ticks : UInt64) : H.heuristic.nextMean ticks =
    softwareMean (pending H.entries ++ [H.answer (.softwareCommit ticks)]) := by
  rw [softwareMean, softwareTicks_pending_commit, softwareCommits_pending_commit,
    ← SampleWindow.toNat_addSaturating_min P.total, ← P.toNat_succ_commits, UInt64.ofNat_toNat,
    UInt64.ofNat_toNat]
  rfl

/-- A mean is below a known cost, or the cost is not above it. -/
theorem not_softwareMean_lt_iff (P : Paced c H) (ticks : UInt64)
    (known : H.heuristic.lastHardwareCost.isFinite = true) :
    ¬ softwareMean (pending H.entries ++ [H.answer (.softwareCommit ticks)]) <
        H.heuristic.lastHardwareCost ↔
      H.heuristic.lastHardwareCost ≤ H.heuristic.nextMean ticks := by
  obtain ⟨a, b, hb, hcost⟩ := P.exists_quotient known
  have hpos : H.heuristic.softwareCommits + 1 ≠ 0 := by
    intro hzero
    have := P.toNat_succ_commits
    rw [hzero] at this
    cases this
  rw [← P.nextMean_eq, hcost]
  exact Binary64.not_div_lt_iff hpos hb

theorem verdict_of_room (P : Paced c H) {ticks : UInt64}
    (room : softwareCommits (pending H.entries) + 1 < H.heuristic.softwareWindow.toNat) :
    (H.answer (.softwareCommit ticks)).verdict = some .stay := by
  obtain ⟨verdict, answered, hpaces⟩ := H.exists_paces ticks
  rw [← P.toNat_succ_commits] at room
  cases hpaces with
  | stay => exact answered
  | complete full => exact absurd room (UInt64.le_iff_toNat_le.1 full).not_gt

/-- A complete window is judged by its mean, which is kept. -/
theorem verdict_of_full (P : Paced c H) {ticks : UInt64}
    (full : softwareCommits (pending H.entries) + 1 = H.heuristic.softwareWindow.toNat) :
    (H.answer (.softwareCommit ticks)).verdict =
        some (H.heuristic.judge (H.heuristic.nextMean ticks)) ∧
      (H.add (.softwareCommit ticks)).heuristic.lastSoftwareMean =
        some (H.heuristic.nextMean ticks) := by
  obtain ⟨verdict, answered, hpaces⟩ := H.exists_paces ticks
  rw [← P.toNat_succ_commits] at full
  cases hpaces with
  | stay room => exact absurd full (UInt64.lt_iff_toNat_lt.1 room).ne
  | complete full judged window commits total cost mean =>
    exact ⟨answered.trans (congrArg some judged.symm), mean⟩

theorem windowed (P : Paced c H) : Windowed c H where
  window := P.window
  pending_lt := P.pending_lt
  counted := P.commits
  exact := ⟨P.toNat_succ_commits.trans (congrArg (· + 1) P.commits.symm), P.toNat_double_window⟩
  stay _ := P.verdict_of_room
  complete ticks full := by
    rw [(P.verdict_of_full full).1]
    cases h : H.heuristic.judge (H.heuristic.nextMean ticks) with
    | stay => exact absurd h Heuristic.judge_ne_stay
    | extend => exact Or.inl rfl
    | returnToHardware => exact Or.inr rfl
  mean ticks full := by rw [(P.verdict_of_full full).2, P.nextMean_eq]
  fits := P.fits
  cost fits := (P.cost fits).2
  known_iff := P.isFinite_iff
  unknown ticks full unknown := by
    rw [(P.verdict_of_full full).1, Option.some.injEq, Heuristic.judge_of_unknown unknown,
      UInt64.le_iff_toNat_le, P.recorded.keeps.largest]
    exact ⟨P.window_le.antisymm, Eq.ge⟩
  known ticks full known := by
    rw [(P.verdict_of_full full).1, Option.some.injEq, Heuristic.judge_of_known known,
      P.not_softwareMean_lt_iff ticks known]

end Paced

/-- After any reports, under any settings. -/
theorem windowed_of (c : HybridConfig) (reports : List CostReport) : Windowed c (of c reports) :=
  (paced_of c reports).windowed

/-- Windows of three, six and ten commits, the largest: then hardware is tried again. -/
example :
    let H := of { windowInitial := 3, windowMax := 10 } (.replicate 19 (.softwareCommit 5))
    (H.entries.filterMap (·.verdict)).filter (· != .stay) =
      [.extend, .extend, .returnToHardware] := by
  decide +kernel

end CostHistory

end HybridTM
