import HybridTM.Proofs.HardwareRetries
import HybridTM.Proofs.ModeInvariant
import HybridTM.Proofs.Verdicts

/-!
# A runtime without hardware

Without hardware a region never starts. The first attempt of a call is refused, whereupon the
heuristic favors software whatever the settings are, and as long as the workers can be counted in
the mode word nothing keeps the call from registering. So no call makes a second attempt, none
spends its retries, and nobody goes for the global lock (`Chronicle.softwareOnly_of_reachable`).
-/

set_option autoImplicit false

namespace HybridTM

/-- The attempts in hardware among some. -/
def hardwareTrials (trials : List Trial) : Nat := trials.countP fun t => t.path = .hardware

/-- Without hardware no region starts, and no swap changes that. -/
theorem Worker.Turn.backend_eq_none {s s' : Shared} {d d' : Bool} {p p' : Phase} {q : Request}
    {reply : Reply} {b' : Backend} (T : Turn .none s d p q reply d' p' s' b') : b' = .none := by
  cases T with
  | enter failures enters => cases enters
  | execution failures turn past =>
    cases turn with
    | refused enters =>
      cases enters
      rfl
    | entered enters => cases enters
    | commit value commits => cases commits
    | _ => rfl
  | _ => rfl

/-! ## Phases -/

/-- What holds of a worker in a phase of a call that has made so many attempts in hardware, if there
is no hardware. -/
def Phase.Unaided (deferred : Bool) (n : Nat) : Phase → Prop
  | .dispatch failures => n ≤ 1 ∧ (deferred = false → failures = 0 ∧ n = 0)
  | .hardware failures .starting => failures = 0 ∧ n = 0
  | .hardware failures (.done result) => failures = 0 ∧ n ≤ 1 ∧ result = .error .unsupported
  | .switching (.join failures) _ => failures = 0 ∧ n = 0
  | .checking _ _ | .hardware _ _ | .software .lock _ => False
  | .switching (.lock _) _ | .switching (.unlock _) _ => False
  | .resting _ | .switching _ _ | .software _ _ | .measuring _ => n ≤ 1

namespace Phase.Unaided

variable {deferred : Bool} {n : Nat} {p : Phase}

/-- A call makes one attempt in hardware at most, the one under way included. -/
theorem attempts (U : p.Unaided deferred n) :
    n + (if p.attempt? = some .hardware then 1 else 0) ≤ 1 := by
  cases p with
  | hardware failures x =>
    cases x with
    | starting =>
      obtain ⟨-, rfl⟩ := U
      exact Nat.le_refl 1
    | done result => exact U.2.1
    | _ => cases U
  | software place call =>
    have hpath : (Phase.software place call).attempt? ≠ some .hardware := by
      obtain ⟨⟨start, role, reads, writes, lockAttempts, active⟩, stage⟩ := call
      cases stage <;> cases role <;> nofun
    rw [if_neg hpath]
    cases place with
    | lock => cases U
    | _ => exact U
  | switching errand stage =>
    cases errand with
    | join failures => exact Nat.le_trans (Nat.le_of_eq U.2) (Nat.zero_le 1)
    | lock failures => cases U
    | unlock ending => cases U
    | _ => exact U
  | dispatch failures => exact U.1
  | checking failures r => cases U
  | _ => exact U

/-- It has made one at most. -/
theorem le (U : p.Unaided deferred n) : n ≤ 1 := Nat.le_trans (Nat.le_add_right ..) U.attempts

/-- Nobody holds the global lock. -/
theorem stake_ne_lock (U : p.Unaided deferred n) : p.stake deferred ≠ .lock := by
  have plain : (if deferred then Stake.epoch else .none) ≠ .lock := by cases deferred <;> nofun
  cases p with
  | software place call =>
    cases place with
    | lock => cases U
    | _ => nofun
  | switching errand stage =>
    cases errand with
    | lock failures => cases U
    | unlock ending => cases U
    | _ => cases stage <;> nofun
  | _ => exact plain

/-- Nobody runs a body in hardware. -/
theorem path?_ne_hardware (U : p.Unaided deferred n) : p.path? ≠ some .hardware := by
  cases p with
  | hardware failures x =>
    cases x with
    | running r => cases U
    | _ => nofun
  | software place call =>
    obtain ⟨⟨start, role, reads, writes, lockAttempts, active⟩, stage⟩ := call
    cases stage <;> cases role <;> nofun
  | _ => nofun

end Phase.Unaided

/-! ## Turns -/

namespace Worker.Turn

variable {b' : Backend} {s s' : Shared} {d d' : Bool} {p p' : Phase} {q : Request}
  {reply : Reply} {writes : List Access} {n : Nat}

/-- An attempt in software is none in hardware. -/
theorem hardwareTrials_software (role : Role) (outcome : Outcome) :
    hardwareTrials [⟨.ofRole role, writes, outcome⟩] = 0 := by
  cases role <;> rfl

/-- Where an errand leads that is not to take the lock or give it back. Only one that begins an
epoch leads away from the beginning of a call. -/
theorem unaided_destination {errand : Errand} {stage : SwapStage} {changed : Bool} {c : Clock}
    (U : (Phase.switching errand stage).Unaided d n)
    (registers : ∀ failures, errand = .register failures → changed = true) :
    (destination c changed errand).Unaided (d || beginsEpoch errand)
      (n + hardwareTrials (((Phase.switching errand stage).turns .advance
        (destination c changed errand) writes).filterMap Event.trial?)) := by
  rw [Phase.turns_of_none rfl (attempt?_destination _ _ _)]
  show (destination c changed errand).Unaided _ n
  cases errand with
  | register failures =>
    obtain rfl := registers failures rfl
    exact U
  | flip failures =>
    refine ⟨U, fun outside => ?_⟩
    rw [beginsEpoch, Bool.or_true] at outside
    cases outside
  | join failures =>
    obtain ⟨rfl, rfl⟩ := U
    cases changed with
    | true => exact Nat.zero_le 1
    | false => exact ⟨Nat.zero_le 1, fun _ => ⟨rfl, rfl⟩⟩
  | lock failures => cases U
  | unlock ending => cases U
  | _ => exact U

/-- Without hardware a call makes no second attempt in hardware, if it can register when the first
one is refused, and goes for the global lock only when it has failed. -/
theorem unaided {h h' : Heuristic} (T : Turn .none s d p q reply d' p' s' b')
    (L : p.Learns h q p' h') (U : p.Unaided d n) (hq : q ≠ .call)
    (room : p.stake d = .none → ∀ failures, (Errand.register failures).change? s.mode ≠ none)
    (patient : q = .advance → ∀ failures, p = .dispatch failures →
      p' = .switching (.lock failures) .load → failures ≠ 0) :
    p'.Unaided d' (n + hardwareTrials ((p.turns q p' writes).filterMap Event.trial?)) := by
  cases T with
  | call alive => exact absurd rfl hq
  | flush =>
    rw [Phase.turns_self]
    exact U
  | toEpoch failures inside => exact U.1
  | toJoin failures outside change => exact U.2 outside
  | toLock failures outside => exact absurd (U.2 outside).1 (patient rfl failures rfl rfl)
  | toHardware failures outside => exact U.2 outside
  | enter failures enters => cases enters
  | check failures reads hardware => cases U
  | refuse failures r abort => cases U
  | execution failures turn past =>
    cases turn with
    | refused enters =>
      cases enters
      obtain ⟨rfl, rfl⟩ := U
      exact ⟨rfl, Nat.le_refl 1, rfl⟩
    | entered enters => cases enters
    | _ => cases U
  | settle failures value ticks => cases U.2.2
  | retry failures failures' abort ticks =>
    -- The heuristic favors software, and the path is not chosen again.
    cases U.2.2
    cases L.2 rfl
  | toSoftware failures failures' abort ticks => exact U.2.1
  | @load errand next change => cases errand <;> exact U
  | @inapplicable errand change =>
    refine unaided_destination U fun failures herrand => ?_
    subst herrand
    exact absurd change (room rfl failures)
  | swap found mode => exact unaided_destination U fun _ _ => rfl
  | @swapMode errand seen next found mode => cases errand <;> exact U
  | @reload errand seen next lost persistent => cases errand <;> exact U
  | giveUp lost persistent =>
    refine unaided_destination U fun failures herrand => ?_
    subst herrand
    cases persistent
  | announce seen next => exact unaided_destination U fun _ _ => rfl
  | @software place call call' s' turn =>
    obtain ⟨tx, stage⟩ := call
    cases place with
    | lock => cases U
    | _ =>
      cases turn with
      | exclusive hstage only => obtain rfl : stage = _ := hstage; exact U
      | optimistic hstage others => obtain rfl : stage = _ := hstage; exact U
      | serial hstage others begins => obtain rfl : stage = _ := hstage; exact U
      | failed hstage fails => obtain rfl : stage = _ := hstage; exact U
      | @rollback err hstage =>
        obtain rfl : stage = _ := hstage
        exact (hardwareTrials_software tx.role (.failed err)).symm ▸ U
  | @commit place call value s' turn =>
    obtain ⟨tx, stage⟩ := call
    have none : hardwareTrials [⟨.ofRole tx.role, writes, .committed⟩] = 0 :=
      hardwareTrials_software tx.role .committed
    cases turn with
    | commit hstage commits =>
      obtain rfl : stage = _ := hstage
      cases place with
      | lock => cases U
      | _ => exact none.symm ▸ U
  | readSoftware place reads => cases place <;> exact U
  | writeSoftware place tx a v mask => cases place <;> exact U
  | endSoftware place tx result => cases place <;> cases result <;> exact U
  | panicSoftware place tx =>
    have none : hardwareTrials [⟨.ofRole tx.role, writes, .panicked⟩] = 0 :=
      hardwareTrials_software tx.role .panicked
    cases place with
    | lock => cases U
    | _ => exact none.symm ▸ U
  | readRegion failures reads => cases U
  | writeRegion failures writes => cases U
  | abort failures r code => cases U
  | endRegion failures r result => cases U
  | panicRegion failures r => cases U
  | _ => exact U

end Worker.Turn

/-! ## Runs -/

namespace Chronicle

variable {ι : Type} [DecidableEq ι] {r : Runtime} {c : Chronicle ι}

/-- Without hardware there is never any. -/
theorem backend_eq_none (none : r.backend = .none) (h : Reachable r c) :
    c.system.runtime.backend = .none := by
  induction h with
  | refl => exact none
  | @tail c c' _ hstep ih =>
    cases hstep with
    | act i q spares acts =>
      have T := (turn_of_act acts).1
      rw [ih] at T
      exact T.backend_eq_none
    | faults f =>
      show c.system.runtime.backend.modifyFaults f = _
      rw [ih]
      rfl

/-- What holds without hardware. -/
structure SoftwareOnly (c : Chronicle ι) : Prop where
  /-- The global lock is not held. -/
  mode : c.system.runtime.mode.mode ≠ .glock
  /-- No body runs in hardware or under the global lock. -/
  path : ∀ i, (c.system.worker i).path? ≠ some .hardware ∧
    (c.system.worker i).path? ≠ some .glock
  /-- The last call of each worker makes one attempt in hardware at most, the one that is under way
  included. -/
  attempts : ∀ i, hardwareTrials (c.notes i).trials +
    (if (c.phase i).attempt? = some .hardware then 1 else 0) ≤ 1
  /-- So did every call that returned. -/
  returned : ∀ x ∈ c.returned, hardwareTrials x.trials ≤ 1

variable [Fintype ι]

omit [DecidableEq ι] in
/-- While nobody holds the global lock there is room in the mode word for another worker. -/
theorem room_of_balanced [DecidableEq ι] {s : ModeSnapshot} {stake : ι → Stake} {i : ι}
    (B : Balanced s stake) (few : Fintype.card ι < ModeSnapshot.countLimit)
    (unlocked : s.mode ≠ .glock) (outside : stake i = .none) (failures : UInt32) :
    (Errand.register failures).change? s ≠ none := by
  have hdeferred : s.deferred ≠ ModeSnapshot.maxCount := by
    have below : s.deferred ≤ (Finset.univ.erase i).card := by
      rw [B.deferred, numberOf_eq_add i, outside, Finset.card_eq_sum_ones]
      refine (Nat.zero_add _).trans_le (Finset.sum_le_sum fun j _ => Bool.toNat_le _)
    rw [Finset.card_erase_of_mem (Finset.mem_univ i), Finset.card_univ] at below
    have : 0 < Fintype.card ι := Fintype.card_pos_iff.2 ⟨i⟩
    unfold ModeSnapshot.maxCount
    omega
  have applies := ModeSnapshot.enterDeferred?_eq_some_iff.2 ⟨unlocked, hdeferred, rfl⟩
  rw [Errand.change?, applies]
  exact Option.some_ne_none _

theorem mode_ne_glock {s : System ι} (V : s.Valid) {n : ι → Nat}
    (U : ∀ i, (s.worker i).phase.Unaided (s.worker i).deferred (n i)) :
    s.runtime.mode.mode ≠ .glock := by
  intro hlocked
  obtain ⟨i, hi, -⟩ := V.orderly.glock.1 hlocked
  exact (U i).stake_ne_lock hi

/-- No call comes to a second attempt in hardware. -/
theorem unaided_of_reachable (created : r.Created) (none : r.backend = .none)
    (few : Fintype.card ι < ModeSnapshot.countLimit) (retries : r.config.maxRetries ≠ 0)
    (h : Reachable r c) (i : ι) :
    (c.phase i).Unaided (c.system.worker i).deferred (hardwareTrials (c.notes i).trials) := by
  induction h generalizing i with
  | refl => exact Nat.zero_le 1
  | @tail c c' hc hstep ih =>
    cases hstep with
    | faults f => exact ih i
    | act j q spares acts =>
      obtain ⟨T, hnotes, -, hothers⟩ := turn_of_act acts
      by_cases hi : i = j
      · subst hi
        by_cases hq : q = .call
        · subst hq
          obtain ⟨-, hphase, hempty⟩ := call_of_act acts
          rw [hphase, hempty]
          exact ⟨Nat.zero_le 1, fun _ => ⟨rfl, rfl⟩⟩
        · have hworker := worker_of_act acts
          have V := System.valid_of_reachable created (Reachable.system hc)
          have room (outside : (c.phase i).stake (c.system.worker i).deferred = .none) :=
            room_of_balanced V.balanced few (mode_ne_glock V ih) (i := i) outside
          rw [backend_eq_none none hc] at T
          rw [hnotes, noted, events, Notes.trials_after hq, hardwareTrials, List.countP_append]
          refine T.unaided (Worker.learns_of_act hworker) (ih i) hq room ?_
          rintro rfl failures hp hp' hzero
          have spent := Worker.maxRetries_le_of_lock hworker hp hp'
          rw [hzero, (config_of_reachable hc).1] at spent
          exact retries (UInt32.le_antisymm spent UInt32.zero_le)
      · rw [phase, (hothers i hi).1, (hothers i hi).2]
        exact ih i

/-- Without hardware everything runs in software, and every call makes one attempt in hardware at
most. -/
theorem softwareOnly_of_reachable (created : r.Created) (none : r.backend = .none)
    (few : Fintype.card ι < ModeSnapshot.countLimit) (retries : r.config.maxRetries ≠ 0)
    (h : Reachable r c) : c.SoftwareOnly where
  mode := mode_ne_glock (System.valid_of_reachable created h.system)
    (unaided_of_reachable created none few retries h)
  path i := by
    have U := unaided_of_reachable created none few retries h i
    refine ⟨U.path?_ne_hardware, fun hpath => U.stake_ne_lock ?_⟩
    exact ((System.orderly_of_reachable created h.system).glockPath i hpath).1
  attempts i := (unaided_of_reachable created none few retries h i).attempts
  returned := by
    induction h with
    | refl => nofun
    | @tail c c' hc hstep ih =>
      cases hstep with
      | faults f => exact ih
      | act i q spares acts =>
        intro x hx
        rw [returned_of_act acts, ← (turn_of_act acts).2.1] at hx
        rcases List.mem_append.1 hx with hx | hx
        · exact ih x hx
        · obtain ⟨value, -, rfl⟩ := Option.map_eq_some_iff.1 (Option.mem_toList.1 hx)
          exact (unaided_of_reachable created none few retries
            (.tail hc (.act i q spares acts)) i).le

end Chronicle

end HybridTM
