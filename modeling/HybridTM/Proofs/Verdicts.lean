import HybridTM.Proofs.Books

/-!
# Verdicts of the heuristic

A worker changes its heuristic only where it accounts for a stretch and where its epoch begins, and
does at once what the heuristic then says (`Worker.learns_of_act`). It goes for the global lock only
when its failures in hardware are as many as the settings allow (`Worker.maxRetries_le_of_lock`).

As long as the clock has room for every stretch the ticks of a window can be added up: no step
overflows, and none brings a worker to where one would (`Worker.hasRoom_of_act`).
-/

set_option autoImplicit false

namespace HybridTM

/-- What a step does to the heuristic, and what the worker makes of it: after an abort for which it
favors software the worker registers for an epoch, and its epoch ends just when it says so. -/
def Phase.Learns (h : Heuristic) (p : Phase) (q : Request) (p' : Phase) (h' : Heuristic) : Prop :=
  match q, p, p' with
  | .account ticks, .hardware _ (.done (.ok _)), _ => h' = (h.recordHardwareCommit ticks).2
  | .account ticks, .hardware failures (.done (.error abort)), _ =>
      if abort.isModeChange then h' = h
      else h' = (h.recordHardwareAbort ticks abort).2 ∧ (h'.favorsSoftware abort = .ok true →
        p' = .switching (.register (failures + 1)) .load)
  | .account ticks, .measuring value, _ =>
      h' = (h.recordSoftwareCommit ticks).2 ∧
        p' = if (h.recordSoftwareCommit ticks).1 = .returnToHardware then
            .switching (.endEpoch (.returned value)) .load
          else .resting (some (.returned value))
  | .advance, .switching (.flip _) _, .dispatch _ => h.beginEpoch = .ok h'
  | _, _, _ => h' = h

namespace Worker

variable {w w' : Worker} {r r' : Runtime}

/-! ## Errands -/

theorem heuristic_rest (w : Worker) (r : Runtime) (ending : Ending) :
    (w.rest r ending).1.heuristic = w.heuristic := by
  cases ending <;> rfl

theorem heuristic_afterErrand {errand : Errand} {change : Option (ModeSnapshot × ModeSnapshot)}
    (h : w.afterErrand r errand change = .ok (w', r')) :
    if beginsEpoch errand then w.heuristic.beginEpoch = .ok w'.heuristic
    else w'.heuristic = w.heuristic := by
  have departure (counted : Bool) (ending : Ending) :
      ((if counted then w.countToHardware else w).rest r ending).1.heuristic = w.heuristic := by
    rw [heuristic_rest]
    cases counted <;> rfl
  cases errand with
  | flip failures =>
    obtain ⟨heuristic, hbegin, heq⟩ := exists_of_map_eq_ok h
    obtain ⟨rfl, -⟩ := Prod.mk.inj heq
    cases change <;> exact hbegin
  | leave ending =>
    obtain ⟨rfl, -⟩ := Prod.mk.inj (Except.ok.inj h)
    exact departure _ ending
  | endEpoch ending =>
    obtain ⟨rfl, -⟩ := Prod.mk.inj (Except.ok.inj h)
    exact departure _ ending
  | unlock ending =>
    obtain ⟨rfl, -⟩ := Prod.mk.inj (Except.ok.inj h)
    exact heuristic_rest w r ending
  | _ => cases change <;> obtain ⟨rfl, -⟩ := Prod.mk.inj (Except.ok.inj h) <;> rfl

theorem learns_afterErrand {errand : Errand} {stage : SwapStage}
    {change : Option (ModeSnapshot × ModeSnapshot)}
    (h : w.afterErrand r errand change = .ok (w', r')) :
    (Phase.switching errand stage).Learns w.heuristic .advance w'.phase w'.heuristic := by
  have hphase := (afterErrand_spec h).1
  have hheuristic := heuristic_afterErrand h
  cases errand with
  | flip failures =>
    rw [hphase]
    exact hheuristic
  | _ => exact hheuristic

theorem learns_advanceErrand {errand : Errand} {stage : SwapStage}
    (h : w.advanceErrand r errand stage = .ok (w', r')) :
    (Phase.switching errand stage).Learns w.heuristic .advance w'.phase w'.heuristic := by
  -- An errand that goes on leaves the heuristic alone.
  have onwards (stage' : SwapStage) : (Phase.switching errand stage).Learns w.heuristic .advance
      (w.goto (.switching errand stage')).phase (w.goto (.switching errand stage')).heuristic := by
    cases errand <;> rfl
  cases stage with
  | load =>
    unfold advanceErrand at h
    simp only at h
    split at h
    · obtain ⟨rfl, rfl⟩ := Prod.mk.inj (Except.ok.inj h)
      exact onwards _
    · exact learns_afterErrand h
  | swap seen next =>
    unfold advanceErrand at h
    simp only at h
    split at h
    · split at h
      · exact learns_afterErrand h
      · obtain ⟨rfl, -⟩ := Prod.mk.inj (Except.ok.inj h)
        exact onwards _
    · split at h
      · obtain ⟨rfl, -⟩ := Prod.mk.inj (Except.ok.inj h)
        exact onwards _
      · exact learns_afterErrand h
  | announce seen next => exact learns_afterErrand h

/-! ## Accounting -/

theorem learns_accountHardware {failures : UInt32} {result : Except HardwareAbort Word}
    {ticks : UInt64} (h : w.accountHardware r failures result ticks = .ok (w', r')) :
    (Phase.hardware failures (.done result)).Learns w.heuristic (.account ticks) w'.phase
      w'.heuristic := by
  cases result with
  | ok value =>
    obtain ⟨sample, -, rfl, -⟩ := accountHardware_ok h
    rfl
  | error abort =>
    simp only [Phase.Learns]
    rcases accountHardware_error h with
      ⟨mode, -, rfl⟩ | ⟨mode, sample, favors, -, hfavors, -, rfl⟩
    · rw [if_pos mode]
      rfl
    · rw [if_neg (ne_true_of_eq_false mode)]
      refine ⟨rfl, fun favored => ?_⟩
      obtain rfl : favors = true := Except.ok.inj (hfavors.symm.trans favored)
      rfl

theorem learns_accountSoftware {value : Word} {ticks : UInt64}
    (h : w.accountSoftware r value ticks = (w', r')) :
    (Phase.measuring value).Learns w.heuristic (.account ticks) w'.phase w'.heuristic := by
  simp only [Phase.Learns]
  rcases hrecord : w.heuristic.recordSoftwareCommit ticks with ⟨verdict, heuristic⟩
  simp only [accountSoftware, hrecord] at h
  cases verdict <;> obtain ⟨rfl, -⟩ := Prod.mk.inj h <;> exact ⟨rfl, rfl⟩

/-! ## All steps -/

theorem learns_advance (h : w.advance r = some (.ok (w', r'))) :
    w.phase.Learns w.heuristic .advance w'.phase w'.heuristic := by
  unfold advance at h
  split at h
  · cases h
  · cases h
  · next failures hphase =>
    obtain ⟨w₁, hchoose, heq⟩ := Option.map_eq_some_iff.1 h
    obtain ⟨rfl, rfl⟩ := Prod.mk.inj (Except.ok.inj heq)
    rw [hphase]
    unfold choosePath at hchoose
    split at hchoose
    · obtain rfl := Option.some.inj hchoose
      rfl
    · simp only at hchoose
      split at hchoose
      · cases hchoose
      · obtain ⟨next, -, rfl⟩ := Option.map_eq_some_iff.1 hchoose
        rfl
      · split at hchoose
        · obtain ⟨next, -, rfl⟩ := Option.map_eq_some_iff.1 hchoose
          rfl
        · obtain rfl := Option.some.inj hchoose
          rfl
  · next failures region hphase =>
    obtain ⟨rfl, rfl⟩ := Prod.mk.inj (Except.ok.inj (Option.some.inj h))
    rw [hphase]
    rfl
  · next failures x hphase =>
    obtain ⟨_, hadvance, heq⟩ := Option.map_eq_some_iff.1 h
    obtain rfl := Except.ok.inj heq
    obtain ⟨⟨x', b', m⟩, -, heq⟩ := Option.map_eq_some_iff.1 hadvance
    simp only at heq
    rw [hphase]
    split at heq <;> obtain ⟨rfl, rfl⟩ := Prod.mk.inj heq <;> rfl
  · next errand stage hphase =>
    rw [hphase]
    exact learns_advanceErrand (Option.some.inj h)
  · next place call hphase =>
    obtain ⟨_, hadvance, heq⟩ := Option.map_eq_some_iff.1 h
    obtain rfl := Except.ok.inj heq
    obtain ⟨⟨progress, context, engine⟩, -, heq⟩ := Option.map_eq_some_iff.1 hadvance
    rw [hphase]
    cases progress with
    | going call' =>
      obtain ⟨rfl, rfl⟩ := Prod.mk.inj heq
      rfl
    | committed value =>
      obtain ⟨rfl, rfl⟩ := Prod.mk.inj heq
      cases place <;> rfl

/-- Every step leaves the heuristic alone, or the worker does what it then says. -/
theorem learns_of_act {q : Request} {reply : Reply} (h : w.act r q = some (reply, w', r')) :
    w.phase.Learns w.heuristic q w'.phase w'.heuristic := by
  cases q with
  | advance => exact learns_advance (advance_of_act h).2
  | account ticks =>
    have haccount := (account_of_act h).2.2
    unfold account at haccount
    split at haccount
    · next failures result hphase =>
      rw [hphase]
      exact learns_accountHardware (Option.some.inj haccount)
    · next value hphase =>
      rw [hphase]
      exact learns_accountSoftware (Except.ok.inj (Option.some.inj haccount))
    · cases haccount
  | flush =>
    obtain ⟨-, heq⟩ := Prod.mk.inj (Option.some.inj h)
    obtain ⟨rfl, rfl⟩ := Prod.mk.inj heq
    rfl
  | retire =>
    have hretire := (eq_some_of_done h).2
    unfold retire at hretire
    split at hretire
    · cases hretire
    · split at hretire
      · obtain ⟨rfl, rfl⟩ := Prod.mk.inj (Option.some.inj hretire)
        rfl
      · obtain ⟨rfl, rfl⟩ := Prod.mk.inj (Option.some.inj hretire)
        exact heuristic_rest w r .retired
    · cases hretire
  | panic =>
    have hpanic := (eq_some_of_done h).2
    unfold panic at hpanic
    split at hpanic
    · obtain ⟨rfl, rfl⟩ := Prod.mk.inj (Option.some.inj hpanic)
      rfl
    · next place tx hphase =>
      cases place <;> obtain ⟨rfl, rfl⟩ := Prod.mk.inj (Option.some.inj hpanic) <;> rfl
    · cases hpanic
  | call =>
    obtain ⟨w₁, hcall, heq⟩ := Option.map_eq_some_iff.1 h
    obtain ⟨-, rfl, rfl⟩ : Reply.done = reply ∧ w₁ = w' ∧ r = r' := by simpa using heq
    unfold call at hcall
    split at hcall <;> cases hcall
    rfl
  | read a mask =>
    obtain ⟨⟨result, w₁⟩, hread, heq⟩ := Option.map_eq_some_iff.1 h
    obtain ⟨-, rfl, rfl⟩ : Reply.read result = reply ∧ w₁ = w' ∧ r = r' := by simpa using heq
    unfold read at hread
    split at hread
    · obtain ⟨-, rfl⟩ := Prod.mk.inj (Option.some.inj hread)
      rfl
    · obtain ⟨⟨result', call⟩, -, heq⟩ := Option.map_eq_some_iff.1 hread
      obtain ⟨-, rfl⟩ := Prod.mk.inj heq
      rfl
    · cases hread
  | write a v mask =>
    obtain ⟨⟨result, w₁⟩, hwrite, heq⟩ := Option.map_eq_some_iff.1 h
    obtain ⟨-, rfl, rfl⟩ : Reply.wrote result = reply ∧ w₁ = w' ∧ r = r' := by simpa using heq
    unfold write at hwrite
    split at hwrite <;> cases hwrite <;> rfl
  | abort code =>
    obtain ⟨⟨err, w₁⟩, habort, heq⟩ := Option.map_eq_some_iff.1 h
    obtain ⟨-, rfl, rfl⟩ : Reply.aborted err = reply ∧ w₁ = w' ∧ r = r' := by simpa using heq
    unfold abort at habort
    split at habort <;> cases habort
    rfl
  | endBody result =>
    obtain ⟨w₁, hend, heq⟩ := Option.map_eq_some_iff.1 h
    obtain ⟨-, rfl, rfl⟩ : Reply.done = reply ∧ w₁ = w' ∧ r = r' := by simpa using heq
    unfold endBody at hend
    split at hend <;> cases hend <;> rfl

/-- Who goes for the global lock has no retries left. -/
theorem maxRetries_le_of_lock {failures : UInt32} {stage : SwapStage} {reply : Reply}
    (h : w.act r .advance = some (reply, w', r')) (hp : w.phase = .dispatch failures)
    (hp' : w'.phase = .switching (.lock failures) stage) : r.config.maxRetries ≤ failures := by
  have hadvance := (advance_of_act h).2
  rw [advance, hp] at hadvance
  obtain ⟨w₁, hchoose, heq⟩ := Option.map_eq_some_iff.1 hadvance
  obtain ⟨rfl, rfl⟩ := Prod.mk.inj (Except.ok.inj heq)
  unfold choosePath at hchoose
  split at hchoose
  · obtain rfl := Option.some.inj hchoose
    cases hp'
  · simp only at hchoose
    split at hchoose
    · cases hchoose
    · obtain ⟨next, -, rfl⟩ := Option.map_eq_some_iff.1 hchoose
      cases hp'
    · split at hchoose
      · next spent => exact spent
      · obtain rfl := Option.some.inj hchoose
        cases hp'

end Worker

/-! ## Room -/

namespace Heuristic

variable {h : Heuristic} {ticks : UInt64}

theorem HasRoom.zero (R : h.HasRoom ticks) : h.HasRoom 0 := (Nat.le_add_right ..).trans_lt R

theorem HasRoom.exists_estimate (R : h.HasRoom 0) : ∃ estimate, h.estimate = .ok estimate := by
  unfold estimate
  split
  · exact ⟨_, rfl⟩
  · exact SampleWindow.exists_toSample R

theorem HasRoom.exists_favorsSoftware (R : h.HasRoom 0) (abort : HardwareAbort) :
    ∃ favors, h.favorsSoftware abort = .ok favors := by
  unfold favorsSoftware
  split_ifs
  · exact ⟨_, rfl⟩
  · exact ⟨_, rfl⟩
  · exact exists_map_eq_ok R.exists_estimate _

theorem HasRoom.exists_beginEpoch (R : h.HasRoom 0) : ∃ h', h.beginEpoch = .ok h' :=
  exists_map_eq_ok R.exists_estimate _

theorem HasRoom.takeSample (R : h.HasRoom 0) :
    (∃ sample, h.takeSample.1 = .ok sample) ∧ h.takeSample.2.HasRoom 0 := by
  obtain ⟨sample, hsample⟩ := SampleWindow.exists_toSample R
  unfold Heuristic.takeSample
  rw [hsample]
  split
  · refine ⟨⟨_, rfl⟩, ?_⟩
    show (0 : UInt64).toNat + (0 : UInt64).toNat + (0 : UInt64).toNat < UInt64.size
    decide
  · exact ⟨⟨_, rfl⟩, R⟩

theorem HasRoom.recordHardwareCommit (R : h.HasRoom ticks) :
    (∃ sample, (h.recordHardwareCommit ticks).1 = .ok sample) ∧
      (h.recordHardwareCommit ticks).2.HasRoom 0 := by
  refine HasRoom.takeSample ?_
  unfold HasRoom at R ⊢
  simp only [SampleWindow.addCommit]
  rw [toNat_addSaturating_of_lt (by omega), UInt64.toNat_zero]
  omega

theorem HasRoom.recordHardwareAbort (R : h.HasRoom ticks) (abort : HardwareAbort) :
    (∃ sample, (h.recordHardwareAbort ticks abort).1 = .ok sample) ∧
      (h.recordHardwareAbort ticks abort).2.HasRoom 0 := by
  refine HasRoom.takeSample ?_
  unfold HasRoom at R ⊢
  simp only [SampleWindow.addAbort]
  rw [toNat_addSaturating_of_lt (by omega), UInt64.toNat_zero]
  omega

/-- An epoch of software leaves the hardware window alone. -/
theorem hardware_recordSoftwareCommit (h : Heuristic) (ticks : UInt64) :
    (h.recordSoftwareCommit ticks).2.hardware = h.hardware := by
  unfold recordSoftwareCommit
  simp only
  split
  · rfl
  · split <;> rfl

end Heuristic

/-- What a worker learns leaves room, if there was room for the stretch that it accounts for. -/
theorem Phase.Learns.hasRoom {h h' : Heuristic} {p p' : Phase} {q : Request}
    (L : p.Learns h q p' h') (R : h.HasRoom 0)
    (room : ∀ ticks, q = .account ticks → h.HasRoom ticks) : h'.HasRoom 0 := by
  unfold Phase.Learns at L
  split at L
  · rw [L]
    exact (room _ rfl).recordHardwareCommit.2
  · split at L
    · rw [L]
      exact R
    · rw [L.1]
      exact ((room _ rfl).recordHardwareAbort _).2
  · rw [L.1, Heuristic.HasRoom, Heuristic.hardware_recordSoftwareCommit]
    exact R
  · obtain ⟨estimate, -, rfl⟩ := exists_of_map_eq_ok L
    exact R
  · rw [L]
    exact R

namespace Worker

variable {w w' : Worker} {r r' : Runtime} {q : Request} {reply : Reply}

theorem hasRoom_new (r : Runtime) : (Worker.new r).heuristic.HasRoom 0 := by
  show (0 : UInt64).toNat + (0 : UInt64).toNat + (0 : UInt64).toNat < UInt64.size
  decide

/-- Every step leaves room. -/
theorem hasRoom_of_act (h : w.act r q = some (reply, w', r')) (R : w.heuristic.HasRoom 0) :
    w'.heuristic.HasRoom 0 := by
  refine (learns_of_act h).hasRoom R fun ticks hq => ?_
  subst hq
  exact (account_of_act h).1

/-- With room for the stretch an execution is accounted for. -/
theorem exists_accountHardware {ticks : UInt64} (R : w.heuristic.HasRoom ticks) (r : Runtime)
    (failures : UInt32) (result : Except HardwareAbort Word) :
    ∃ x, w.accountHardware r failures result ticks = .ok x := by
  cases result with
  | ok value => exact exists_map_eq_ok R.recordHardwareCommit.1 _
  | error abort =>
    obtain ⟨⟨sample, hsample⟩, R'⟩ := R.recordHardwareAbort abort
    obtain ⟨favors, hfavors⟩ := R'.exists_favorsSoftware abort
    simp only [accountHardware, modifyTally, hsample, Except.bind, afterFailure, hfavors]
    split <;> exact ⟨_, rfl⟩

/-- With room every errand goes on. -/
theorem exists_advanceErrand (R : w.heuristic.HasRoom 0) (r : Runtime) (errand : Errand)
    (stage : SwapStage) : ∃ x, w.advanceErrand r errand stage = .ok x := by
  -- Only the beginning of an epoch asks for the mean cost of hardware.
  have ends (r : Runtime) (change : Option (ModeSnapshot × ModeSnapshot)) :
      ∃ x, w.afterErrand r errand change = .ok x := by
    cases errand with
    | flip failures => exact exists_map_eq_ok (by cases change <;> exact R.exists_beginEpoch) _
    | _ => cases change <;> exact ⟨_, rfl⟩
  cases stage with
  | load =>
    unfold advanceErrand
    simp only
    split
    · exact ⟨_, rfl⟩
    · exact ends _ _
  | swap seen next =>
    unfold advanceErrand
    simp only
    split_ifs
    · exact ends _ _
    · exact ⟨_, rfl⟩
    · exact ⟨_, rfl⟩
    · exact ends _ _
  | announce seen next => exact ends _ _

end Worker

end HybridTM
