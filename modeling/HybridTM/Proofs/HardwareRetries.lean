import HybridTM.Proofs.Chronicle

/-!
# Retries in hardware

A call counts its failures in hardware while it looks for a path, and goes to hardware only while
there are fewer than the settings allow (`Worker.retries_of_act`). Every abort of a region either
counts as a failure, or is by a change of the mode, or leads the call away from hardware for good.
So in every phase the aborts of a call, those by a change of the mode apart, are no more than the
phase allows (`Phase.Allows`), which every turn keeps (`Worker.Turn.allows`).
-/

set_option autoImplicit false

namespace HybridTM

/-! ## Aborts -/

/-- Whether an attempt was a region that aborted for another reason than a change of the mode. -/
def Trial.isAbort : Trial → Bool
  | ⟨.hardware, _, .failed (.hardware abort)⟩ => !abort.isModeChange
  | _ => false

/-- How many of some attempts were such regions. -/
def aborts (trials : List Trial) : Nat := trials.countP (·.isAbort)

/-- What a step does with the number of failures in hardware: the next region is tried only while
there are few, and afterwards an abort counts as one more, or as the last, unless it is by a change
of the mode. -/
def Phase.Retries (max : UInt32) (p : Phase) (q : Request) (p' : Phase) : Prop :=
  match q, p, p' with
  | .advance, .dispatch failures, .hardware _ _ => failures < max
  | .account _, .hardware failures (.done (.error abort)), .dispatch failures' =>
      if abort.isModeChange then failures' = failures
      else failures' = failures + 1 ∨ failures' = max
  | .account _, .hardware failures (.done (.error abort)), .switching (.register failures') _ =>
      abort.isModeChange = false ∧ failures' = failures + 1
  | _, _, _ => True

namespace Worker

variable {w w' : Worker} {r r' : Runtime}

theorem retries_of_choosePath {failures : UInt32} (h : w.choosePath r failures = some w') :
    (Phase.dispatch failures).Retries r.config.maxRetries .advance w'.phase := by
  unfold choosePath at h
  split at h
  · obtain rfl := Option.some.inj h
    trivial
  · simp only at h
    split at h
    · cases h
    · obtain ⟨next, -, rfl⟩ := Option.map_eq_some_iff.1 h
      trivial
    · split at h
      · obtain ⟨next, -, rfl⟩ := Option.map_eq_some_iff.1 h
        trivial
      · next hbelow =>
        obtain rfl := Option.some.inj h
        exact UInt32.not_le.1 hbelow

theorem config_observeSample (r : Runtime) (sample : Option HardwareSample) :
    (observeSample r sample).config = r.config := by
  unfold observeSample
  split
  · split <;> rfl
  · rfl

theorem retries_of_accountHardware {failures : UInt32} {result : Except HardwareAbort Word}
    {ticks : UInt64} (h : w.accountHardware r failures result ticks = .ok (w', r')) :
    (Phase.hardware failures (.done result)).Retries r.config.maxRetries (.account ticks)
      w'.phase := by
  cases result with
  | ok value => cases w'.phase <;> trivial
  | error abort =>
    rcases accountHardware_error h with ⟨mode, -, rfl⟩ | ⟨mode, sample, favors, -, -, -, rfl⟩
    · simp only [goto, Phase.Retries, mode, if_true]
    · rw [config_observeSample]
      simp only [goto, failureTarget]
      split_ifs
      · exact ⟨mode, rfl⟩
      · simp only [Phase.Retries, mode, Bool.false_eq_true, if_false, or_true]
      · simp only [Phase.Retries, mode, Bool.false_eq_true, if_false, true_or]

/-- Every step does so. -/
theorem retries_of_act {q : Request} {reply : Reply} (h : w.act r q = some (reply, w', r')) :
    w.phase.Retries r.config.maxRetries q w'.phase := by
  cases q with
  | advance =>
    have hadvance := (advance_of_act h).2
    unfold advance at hadvance
    split at hadvance
    · cases hadvance
    · cases hadvance
    · next failures hphase =>
      obtain ⟨w₂, hchoose, heq⟩ := Option.map_eq_some_iff.1 hadvance
      obtain ⟨rfl, rfl⟩ := Prod.mk.inj (Except.ok.inj heq)
      rw [hphase]
      exact retries_of_choosePath hchoose
    · next hphase => rw [hphase]; trivial
    · next hphase => rw [hphase]; trivial
    · next hphase => rw [hphase]; trivial
    · next hphase => rw [hphase]; trivial
  | account ticks =>
    have haccount := (account_of_act h).2.2
    unfold account at haccount
    split at haccount
    · next failures result hphase =>
      rw [hphase]
      exact retries_of_accountHardware (Option.some.inj haccount)
    · next hphase => rw [hphase]; trivial
    · cases haccount
  | _ => trivial

end Worker

/-! ## The bound -/

/-- A phase allows so many aborts of the call so far. -/
def Phase.Allows (max : UInt32) (n : Nat) : Phase → Prop
  | .dispatch failures => n ≤ failures.toNat ∧ failures ≤ max
  | .checking failures _ => n ≤ failures.toNat ∧ failures < max
  | .hardware failures (.done (.error abort)) =>
      (if abort.isModeChange then n ≤ failures.toNat else n ≤ failures.toNat + 1) ∧ failures < max
  | .hardware failures _ => n ≤ failures.toNat ∧ failures < max
  | .switching (.register failures) _ | .switching (.flip failures) _
  | .switching (.join failures) _ | .switching (.lock failures) _ =>
      n ≤ failures.toNat ∧ failures ≤ max
  | .resting _ | .switching _ _ | .software _ _ | .measuring _ => n ≤ max.toNat

namespace Phase.Allows

variable {max : UInt32} {n : Nat} {p : Phase}

/-- No phase allows more aborts than the settings do. -/
theorem le (A : p.Allows max n) : n ≤ max.toNat := by
  have weak {failures : UInt32} (h : n ≤ failures.toNat ∧ failures ≤ max) : n ≤ max.toNat :=
    Nat.le_trans h.1 (UInt32.le_iff_toNat_le.1 h.2)
  have strict {failures : UInt32} (h : n ≤ failures.toNat ∧ failures < max) : n ≤ max.toNat :=
    Nat.le_trans h.1 (Nat.le_of_lt (UInt32.lt_iff_toNat_lt.1 h.2))
  cases p with
  | dispatch failures => exact weak A
  | checking failures r => exact strict A
  | hardware failures x =>
    cases x with
    | done result =>
      cases result with
      | ok value => exact strict A
      | error abort =>
        obtain ⟨hn, hbelow⟩ := A
        have := UInt32.lt_iff_toNat_lt.1 hbelow
        split at hn <;> omega
    | _ => exact strict A
  | switching errand stage =>
    cases errand with
    | register failures => exact weak A
    | flip failures => exact weak A
    | join failures => exact weak A
    | lock failures => exact weak A
    | _ => exact A
  | _ => exact A

end Phase.Allows

/-- An attempt in software is no region. -/
theorem aborts_software (role : Role) (writes : List Access) (outcome : Outcome) :
    aborts [⟨.ofRole role, writes, outcome⟩] = 0 := by
  cases role <;> rfl

/-- A region that aborted is one, unless it was by a change of the mode. -/
theorem aborts_region (writes : List Access) (abort : HardwareAbort) :
    aborts [⟨.hardware, writes, .failed (.hardware abort)⟩] =
      if abort.isModeChange then 0 else 1 := by
  cases h : abort.isModeChange <;> simp [aborts, Trial.isAbort, h]

namespace Worker.Turn

variable {b b' : Backend} {s s' : Shared} {d d' : Bool} {p p' : Phase} {q : Request}
  {reply : Reply} {writes : List Access} {max : UInt32} {n : Nat}

/-- A region that aborts is allowed for as long as the next one is. -/
theorem allows_abort {failures : UInt32} {abort : HardwareAbort}
    (h : n ≤ failures.toNat ∧ failures < max) :
    (Phase.hardware failures (.done (.error abort))).Allows max
      (n + aborts [⟨.hardware, writes, .failed (.hardware abort)⟩]) := by
  rw [aborts_region]
  refine ⟨?_, h.2⟩
  split
  · exact h.1
  · exact Nat.add_le_add_right h.1 1

/-- One more failure than before is still none too many. -/
theorem allows_next {failures : UInt32} (h : n ≤ failures.toNat + 1 ∧ failures < max) :
    n ≤ (failures + 1).toNat ∧ failures + 1 ≤ max := by
  have hbelow := UInt32.lt_iff_toNat_lt.1 h.2
  have hsucc : (failures + 1).toNat = failures.toNat + 1 := by
    have hone : UInt32.toNat 1 = 1 := rfl
    have := max.toNat_lt
    rw [UInt32.toNat_add, hone]
    omega
  rw [UInt32.le_iff_toNat_le, hsucc]
  exact ⟨h.1, hbelow⟩

/-- An errand goes on with the failures that it carries. -/
theorem allows_destination {errand : Errand} {stage : SwapStage} {changed : Bool} {c : Clock}
    (A : (Phase.switching errand stage).Allows max n) :
    (destination c changed errand).Allows max (n + aborts (((Phase.switching errand stage).turns
      .advance (destination c changed errand) writes).filterMap Event.trial?)) := by
  rw [Phase.turns_of_none rfl (attempt?_destination _ _ _)]
  cases errand with
  | register failures => cases changed <;> exact A
  | flip failures => exact A
  | join failures =>
    cases changed with
    | true => exact A.le
    | false => exact A
  | lock failures =>
    cases changed with
    | true => exact A.le
    | false => exact A
  | _ => exact A

/-- After a turn the phase allows the aborts so far and the one with which an attempt ended. -/
theorem allows (T : Turn b s d p q reply d' p' s' b') (R : p.Retries max q p')
    (A : p.Allows max n) (hq : q ≠ .call) :
    p'.Allows max (n + aborts ((p.turns q p' writes).filterMap Event.trial?)) := by
  cases T with
  | call alive => exact absurd rfl hq
  | flush => rw [Phase.turns_self]; exact A
  | toEpoch failures inside => exact A.le
  | toHardware failures outside => exact ⟨A.1, R⟩
  | refuse failures r abort => exact allows_abort A
  | execution failures turn past =>
    cases turn with
    | refused enters => exact allows_abort A
    | entered enters => exact absurd rfl (past _)
    | doomed value doomed => exact allows_abort A
    | conflict value fails => exact allows_abort A
    | _ => exact A
  | settle failures value ticks => exact A.le
  | retry failures failures' abort ticks =>
    obtain ⟨hn, hbelow⟩ := A
    simp only [Phase.Retries] at R
    split at R
    · next hmode =>
      rw [if_pos hmode] at hn
      rw [R]
      exact ⟨hn, UInt32.le_of_lt hbelow⟩
    · next hmode =>
      rw [if_neg hmode] at hn
      rcases R with rfl | rfl
      · exact allows_next ⟨hn, hbelow⟩
      · exact ⟨Nat.le_trans hn (UInt32.lt_iff_toNat_lt.1 hbelow), UInt32.le_refl _⟩
  | toSoftware failures failures' abort ticks =>
    obtain ⟨hn, hbelow⟩ := A
    obtain ⟨hmode, rfl⟩ := R
    rw [hmode, if_neg Bool.false_ne_true] at hn
    exact allows_next ⟨hn, hbelow⟩
  | @load errand next change => cases errand <;> exact A
  | inapplicable change => exact allows_destination A
  | swap found mode => exact allows_destination A
  | @swapMode errand seen next found mode => cases errand <;> exact A
  | @reload errand seen next lost persistent => cases errand <;> exact A
  | giveUp lost persistent => exact allows_destination A
  | announce seen next => exact allows_destination A
  | @software place call call' s' turn =>
    obtain ⟨tx, stage⟩ := call
    cases turn with
    | exclusive hstage only => obtain rfl : stage = _ := hstage; exact A
    | optimistic hstage others => obtain rfl : stage = _ := hstage; exact A
    | serial hstage others begins => obtain rfl : stage = _ := hstage; exact A
    | failed hstage fails => obtain rfl : stage = _ := hstage; exact A
    | @rollback err hstage =>
      obtain rfl : stage = _ := hstage
      exact (aborts_software tx.role writes (.failed err)).symm ▸ A
  | @commit place call value s' turn =>
    obtain ⟨tx, stage⟩ := call
    have none := aborts_software tx.role writes .committed
    cases turn with
    | commit hstage commits =>
      obtain rfl : stage = _ := hstage
      cases place <;> exact none.symm ▸ A
  | endRegion failures r result =>
    cases result with
    | ok value => exact A
    | error err => exact allows_abort A
  | endSoftware place tx result => cases result <;> exact A
  | panicRegion failures r => exact Phase.Allows.le A
  | panicSoftware place tx =>
    have none := aborts_software tx.role writes .panicked
    cases place <;> exact none.symm ▸ A
  | _ => exact A

end Worker.Turn

/-! ## In every chronicle -/

namespace Chronicle

variable {ι : Type} [DecidableEq ι] {r : Runtime} {c : Chronicle ι}

/-- The settings stay. -/
theorem config_of_reachable (h : Reachable r c) :
    c.system.runtime.config = r.config ∧ c.system.runtime.engine.config = r.engine.config := by
  induction h with
  | refl => exact ⟨rfl, rfl⟩
  | tail _ hstep ih =>
    cases hstep with
    | act i q spares acts =>
      obtain ⟨hconfig, hengine⟩ := (posts_of_act acts).config
      exact ⟨hconfig.trans ih.1, hengine.trans ih.2⟩
    | faults f => exact ih

theorem retries_of_act {c' : Chronicle ι} {i : ι} {q : Request} {reply : Reply}
    (h : c.act i q = some (reply, c')) :
    (c.phase i).Retries c.system.runtime.config.maxRetries q (c'.phase i) :=
  Worker.retries_of_act (worker_of_act h)

/-- Every phase allows the aborts of the call so far. -/
theorem allows_of_reachable (h : Reachable r c) (i : ι) :
    (c.phase i).Allows r.config.maxRetries (aborts (c.notes i).trials) := by
  refine h.forall_worker (P := fun w n => w.phase.Allows r.config.maxRetries (aborts n.trials))
    (Nat.zero_le _) (fun {c c' i q reply} hc acts A => ?_) i
  by_cases hq : q = .call
  · subst hq
    obtain ⟨-, hphase, hempty⟩ := call_of_act acts
    rw [show (c'.system.worker i).phase = .dispatch 0 from hphase, hempty]
    exact ⟨Nat.zero_le _, UInt32.zero_le⟩
  · obtain ⟨T, hnotes, -, -⟩ := turn_of_act acts
    have R := retries_of_act acts
    rw [(config_of_reachable hc).1] at R
    rw [hnotes, noted, events, Notes.trials_after hq, aborts, List.countP_append]
    exact T.allows R A hq

/-- No call suffers more aborts than the settings allow, those by a change of the mode apart. -/
theorem aborts_of_returned (h : Reachable r c) {x : Returned} (hx : x ∈ c.returned) :
    aborts x.trials ≤ r.config.maxRetries.toNat := by
  induction h with
  | refl => cases hx
  | @tail c c' hc hstep ih =>
    cases hstep with
    | act i q spares acts =>
      obtain ⟨-, hnotes, -, -⟩ := turn_of_act acts
      rw [returned_of_act acts, ← hnotes] at hx
      rcases List.mem_append.1 hx with hx | hx
      · exact ih hx
      · obtain ⟨value, -, rfl⟩ := Option.map_eq_some_iff.1 (Option.mem_toList.1 hx)
        exact (allows_of_reachable (.tail hc (.act i q spares acts)) i).le
    | faults f => exact ih hx

end Chronicle

end HybridTM
