import HybridTM.Proofs.Fallback
import HybridTM.Proofs.Statistics
import HybridTM.Proofs.SwitchBooks
import HybridTM.Proofs.Windows
import Mathlib.Algebra.Order.Floor.Div

/-!
# Epochs of a worker without hardware

Without hardware a worker that nobody shares the runtime with goes round in circles: a call is
refused by hardware and begins an epoch, all calls up to the end of its last window commit there,
the last of them returns the runtime to hardware, and the next call is refused again. Each step goes
on with such a round or leads to its next stage (`Worker.Turn.lap`), so that the rounds can be
counted (`Chronicle.Round`), and all statistics follow from the number of calls that returned
(`Chronicle.softwareOnly_and_periodic`).
-/

set_option autoImplicit false

namespace HybridTM

open scoped UInt64.CommRing

/-! ## Rounds -/

/-- How far a round has come. -/
inductive Stage where
  /-- Hardware is yet to be tried. -/
  | waiting
  /-- Hardware has refused. -/
  | refused
  /-- The runtime is turned to software. -/
  | turning
  /-- The epoch is under way. -/
  | running
  /-- The runtime is returned to hardware. -/
  | ending
  deriving DecidableEq, Repr

namespace Stage

/-- The attempts in hardware so far in the round. -/
def attempts : Stage → Nat
  | waiting => 0
  | _ => 1

/-- How often the round has turned the runtime to software. -/
def flips : Stage → Nat
  | running | ending => 1
  | _ => 0

/-- The calls that have committed and not yet returned. -/
def unreturned : Stage → Nat
  | ending => 1
  | _ => 0

/-- So many calls committed in the epoch of the round. -/
def Position (c : HybridConfig) (last : Nat) (h : Heuristic) (m : Nat) : Stage → Prop
  | running => h.Reached c last m
  | ending => m = c.commitsIn (last + 1)
  | _ => m = 0

end Stage

/-- The stage of a round in a phase. -/
def Phase.stage (deferred : Bool) : Phase → Stage
  | .hardware _ (.done _) => .refused
  | .switching (.register _) _ | .switching (.flip _) _ => .turning
  | .switching (.endEpoch _) _ => .ending
  | _ => if deferred then .running else .waiting

/-- An attempt that hardware refused. -/
def Trial.IsRefused (t : Trial) : Prop :=
  t.path = .hardware ∧ t.outcome = .failed (.hardware .unsupported)

/-- An attempt in software that committed or was not valid. -/
def Trial.IsPlain (t : Trial) : Prop :=
  t.path ≠ .hardware ∧
    (t.outcome = .committed ∨ ∃ err, t.outcome = .failed err ∧ err.abortClass = .validation)

/-- What a step does to a round: from a phase and a heuristic to a phase and a heuristic, from stage
to stage, with the attempts that end, the switches that are counted and the calls that return. -/
inductive Lap (p : Phase) (h : Heuristic) (p' : Phase) (h' : Heuristic) :
    Stage → Stage → List Trial → (Direction → UInt64) → Nat → Prop
  /-- The round goes on. -/
  | goes (stage : Stage) {trials : List Trial} (kept : h' = h)
      (rests : p'.isResting = true → p.isResting = true) (plain : ∀ t ∈ trials, t.IsPlain) :
      Lap p h p' h' stage stage trials (fun _ => 0) 0
  /-- Hardware refuses. -/
  | refused {t : Trial} (rests : p'.isResting = false) (refused : t.IsRefused) :
      Lap p h p' h' .waiting .refused [t] (fun _ => 0) 0
  /-- The refusal is accounted for. -/
  | turns (rests : p'.isResting = false) : Lap p h p' h' .refused .turning [] (fun _ => 0) 0
  /-- The epoch begins. -/
  | begins (rests : p'.isResting = false) (begun : h.beginEpoch = .ok h') :
      Lap p h p' h' .turning .running [] (Direction.one .toSoftware) 0
  /-- A call returns, and the epoch goes on. -/
  | commits (ticks : UInt64) (recorded : h' = (h.recordSoftwareCommit ticks).2)
      (verdict : (h.recordSoftwareCommit ticks).1 ≠ .returnToHardware) :
      Lap p h p' h' .running .running [] (fun _ => 0) 1
  /-- A call has committed, and the epoch is to end. -/
  | ends (ticks : UInt64) (rests : p'.isResting = false)
      (verdict : (h.recordSoftwareCommit ticks).1 = .returnToHardware) :
      Lap p h p' h' .running .ending [] (fun _ => 0) 0
  /-- The call returns. -/
  | returns : Lap p h p' h' .ending .waiting [] (Direction.one .toHardware) 1

/-- While a call is under way the round goes on. -/
theorem Lap.onwards {p p' : Phase} {h h' : Heuristic} (stage : Stage) {trials : List Trial}
    (kept : h' = h) (underway : p'.isResting = false) (plain : ∀ t ∈ trials, t.IsPlain) :
    Lap p h p' h' stage stage trials (fun _ => 0) 0 :=
  .goes stage kept (fun rests => absurd (underway.symm.trans rests) Bool.false_ne_true) plain

/-! ## Steps of a round -/

/-- What is asked of a worker that is not dropped and whose bodies neither fail nor panic. -/
def Request.IsSmooth : Request → Prop
  | .retire | .panic | .endBody (.error _) => False
  | _ => True

/-- What holds of a worker in a phase, if nobody else is there: it has no epoch to join, and turns
the runtime to software and back itself. -/
def Phase.Solitary (s : Shared) : Phase → Prop
  | .switching (.join _) _ | .switching (.leave _) _ | .software .joined _ => False
  | .switching (.flip _) .load | .switching (.flip _) (.swap _ _) => s.mode.mode = .hw
  | .switching (.endEpoch ending) (.announce seen _) =>
      (∃ value, ending = .returned value) ∧ seen.mode = .sw
  | .switching (.endEpoch ending) _ => ∃ value, ending = .returned value
  | .software _ ⟨_, .aborting err⟩ => err.abortClass = .validation
  | _ => True

/-- The mode word says what the stake of the worker is. -/
structure Shared.Reflects (s : Shared) (stake : Stake) : Prop where
  /-- Without a stake it is initial. -/
  none : stake = .none → s.mode = .initial
  /-- A worker that has registered is counted. -/
  registered : stake = .registered → s.mode.deferred ≠ 0
  /-- In an epoch only its worker is counted. -/
  epoch : stake = .epoch → s.mode = ⟨.sw, 1, 0⟩

namespace Phase.Applied

variable {errand : Errand} {seen next : ModeSnapshot}

/-- A change of the mode that is yet to be shown is one that its errand makes. -/
theorem route (A : (Phase.switching errand (.announce seen next)).Applied) :
    errand.Route seen.mode next.mode :=
  (A errand seen next rfl).elim Errand.route

/-- To begin an epoch is a switch to software. -/
theorem credited_flip {failures : UInt32}
    (A : (Phase.switching (.flip failures) (.announce seen next)).Applied) :
    (Phase.switching (.flip failures) (.announce seen next)).credited .advance =
      Direction.one .toSoftware := by
  have route := A.route
  obtain ⟨before, _, _⟩ := seen
  obtain ⟨after, _, _⟩ := next
  cases route
  funext direction
  cases direction <;> rfl

/-- To end it in software is a switch to hardware, if a call does that. -/
theorem credited_endEpoch {value : Word}
    (A : (Phase.switching (.endEpoch (.returned value)) (.announce seen next)).Applied)
    (software : seen.mode = .sw) :
    (Phase.switching (.endEpoch (.returned value)) (.announce seen next)).credited .advance =
      Direction.one .toHardware := by
  have route := A.route
  obtain ⟨before, _, _⟩ := seen
  obtain ⟨after, _, _⟩ := next
  obtain rfl : before = .sw := software
  cases route
  funext direction
  cases direction <;> rfl

end Phase.Applied

namespace Worker.Turn

variable {b : Backend} {b' : Backend} {s s' : Shared} {d d' : Bool} {p p' : Phase} {q : Request}
  {reply : Reply} {writes : List Access} {n : Nat} {h h' : Heuristic}

/-- Without hardware a worker that is the only one registers, turns the runtime to software and
back, and has no other errands. -/
theorem errand_cases {errand : Errand} {stage : SwapStage}
    (U : (Phase.switching errand stage).Unaided d n)
    (S : (Phase.switching errand stage).Solitary s) :
    (∃ failures, errand = .register failures) ∨ (∃ failures, errand = .flip failures) ∨
      ∃ ending, errand = .endEpoch ending := by
  cases errand with
  | register failures => exact Or.inl ⟨failures, rfl⟩
  | flip failures => exact Or.inr (Or.inl ⟨failures, rfl⟩)
  | endEpoch ending => exact Or.inr (Or.inr ⟨ending, rfl⟩)
  | join failures => cases S
  | leave ending => cases S
  | lock failures => cases U
  | unlock ending => cases U

/-- All its attempts in software are made in its own epoch. -/
theorem place_eq_epoch {place : Place} {call : Call}
    (U : (Phase.software place call).Unaided d n) (S : (Phase.software place call).Solitary s) :
    place = .epoch := by
  cases place with
  | epoch => rfl
  | joined => cases S
  | lock => cases U

/-- What an errand swaps was there. -/
theorem seen_of_found {errand : Errand} {seen next : ModeSnapshot}
    (sound : (Phase.switching errand (.swap seen next)).Sound d)
    (found : s.memory.read Runtime.modeAddr = seen.encode) : s.mode = seen := by
  rw [Shared.mode, found, ModeSnapshot.decode_encode sound.2.1]

theorem solitary (T : Turn .none s d p q reply d' p' s' b') (hq : q.IsSmooth)
    (U : p.Unaided d n) (sound : p.Sound d) (A : p.Applied) (R : s.Reflects (p.stake d))
    (S : p.Solitary s) : p'.Solitary s' := by
  cases T with
  | retireEpoch inside => cases hq
  | panicSoftware place tx => cases hq
  | flush => exact S
  | toJoin failures outside change =>
    rw [R.none (by rw [outside]; rfl)] at change
    cases change
  | goBack value ticks => exact ⟨value, rfl⟩
  | @load errand next change =>
    obtain ⟨failures, rfl⟩ | ⟨failures, rfl⟩ | ⟨ending, rfl⟩ := errand_cases U S <;> exact S
  | @inapplicable errand change =>
    obtain ⟨failures, rfl⟩ | ⟨failures, rfl⟩ | ⟨ending, rfl⟩ := errand_cases U S <;> trivial
  | @swap errand seen next found mode =>
    obtain ⟨failures, rfl⟩ | ⟨failures, rfl⟩ | ⟨ending, rfl⟩ := errand_cases U S
    · -- The mode stays, and it was hardware.
      show (s.setMode next).mode.mode = .hw
      rw [mode_setMode s (Errand.inRange sound.2.1 sound.2.2), ← mode, ← seen_of_found sound found,
        R.none rfl]
      rfl
    · trivial
    · trivial
  | @swapMode errand seen next found mode =>
    obtain ⟨failures, rfl⟩ | ⟨failures, rfl⟩ | ⟨ending, rfl⟩ := errand_cases U S
    · trivial
    · trivial
    · refine ⟨S, ?_⟩
      rw [← seen_of_found sound found, R.epoch rfl]
  | @reload errand seen next lost persistent =>
    obtain ⟨failures, rfl⟩ | ⟨failures, rfl⟩ | ⟨ending, rfl⟩ := errand_cases U S <;> exact S
  | @giveUp errand seen next lost persistent =>
    obtain ⟨failures, rfl⟩ | ⟨failures, rfl⟩ | ⟨ending, rfl⟩ := errand_cases U S <;> trivial
  | @announce errand seen next =>
    obtain ⟨failures, rfl⟩ | ⟨failures, rfl⟩ | ⟨ending, rfl⟩ := errand_cases U S
    · cases A.route
    · trivial
    · trivial
  | @software place call call' s' turn =>
    obtain rfl := place_eq_epoch U S
    cases turn with
    | failed hstage fails =>
      rcases Transaction.commit_cases fails with ⟨-, hresult, -⟩ | ⟨-, -, -, -, -, hresult, -⟩ |
        ⟨-, -, hresult, -⟩ | ⟨-, hresult, -⟩ | ⟨-, hresult, -⟩ <;> cases hresult
      rfl
    | _ => trivial
  | @commit place call value s' turn =>
    obtain rfl := place_eq_epoch U S
    trivial
  | readSoftware place reads =>
    obtain rfl := place_eq_epoch U S
    trivial
  | writeSoftware place tx a v mask =>
    obtain rfl := place_eq_epoch U S
    trivial
  | endSoftware place tx result =>
    obtain rfl := place_eq_epoch U S
    cases result with
    | error err => cases hq
    | ok value => trivial
  | _ => trivial

/-- Every step goes on with the round or leads to its next stage. -/
theorem lap (T : Turn .none s d p q reply d' p' s' b') (hq : q.IsSmooth) (U : p.Unaided d n)
    (U' : ∀ failures, p' ≠ .switching (.lock failures) .load) (sound : p.Sound d) (A : p.Applied)
    (R : s.Reflects (p.stake d)) (S : p.Solitary s) (L : p.Learns h q p' h')
    (writes : List Access) :
    Lap p h p' h' (p.stage d) (p'.stage d') ((p.turns q p' writes).filterMap Event.trial?)
      (p.credited q) (p'.returns? q).toList.length := by
  have none : ∀ t ∈ ([] : List Trial), t.IsPlain := List.forall_mem_nil _
  have software (tx : Transaction) {outcome : Outcome} (houtcome : outcome = .committed ∨
      ∃ err, outcome = .failed err ∧ err.abortClass = .validation) :
      ∀ t ∈ [(⟨.ofRole tx.role, writes, outcome⟩ : Trial)], t.IsPlain := by
    refine List.forall_mem_singleton.2 ⟨?_, houtcome⟩
    cases tx.role <;> nofun
  cases T with
  | retire outside => cases hq
  | retireEpoch inside => cases hq
  | panicRegion failures r => cases hq
  | panicSoftware place tx => cases hq
  | call alive => exact .onwards _ L rfl none
  | flush =>
    rw [Phase.turns_self]
    exact .goes _ L id none
  | toEpoch failures inside =>
    subst inside
    exact .onwards _ L rfl none
  | toJoin failures outside change =>
    rw [R.none (by rw [outside]; rfl)] at change
    cases change
  | toLock failures outside => exact absurd rfl (U' failures)
  | toHardware failures outside =>
    subst outside
    exact .onwards _ L rfl none
  | enter failures enters => cases enters
  | check failures reads hardware => cases U
  | refuse failures r abort => cases U
  | execution failures turn past =>
    cases turn with
    | refused enters =>
      cases enters
      obtain rfl : d = false := sound.1
      exact .refused rfl ⟨rfl, rfl⟩
    | entered enters => cases enters
    | _ => cases U
  | settle failures value ticks => cases U.2.2
  | retry failures failures' abort ticks =>
    cases U.2.2
    cases L.2 rfl
  | toSoftware failures failures' abort ticks => exact .turns rfl
  | @load errand next change =>
    obtain ⟨failures, rfl⟩ | ⟨failures, rfl⟩ | ⟨ending, rfl⟩ := errand_cases U S <;>
      exact .onwards _ L rfl none
  | @inapplicable errand change =>
    -- Each errand applies to what is in the word.
    obtain ⟨failures, rfl⟩ | ⟨failures, rfl⟩ | ⟨ending, rfl⟩ := errand_cases U S
    · rw [R.none rfl] at change
      cases change
    · have applies := ModeSnapshot.flipToSoftware?_eq_some_iff.2 ⟨S, R.registered rfl, rfl⟩
      cases change.symm.trans applies
    · rw [R.epoch rfl] at change
      cases change
  | @swap errand seen next found mode =>
    obtain ⟨failures, rfl⟩ | ⟨failures, rfl⟩ | ⟨ending, rfl⟩ := errand_cases U S
    · exact .onwards _ L rfl none
    · obtain ⟨hmode, -, rfl⟩ := ModeSnapshot.flipToSoftware?_eq_some_iff.1 sound.2.2
      rw [hmode] at mode
      cases mode
    · have change := sound.2.2
      rw [← seen_of_found sound found, R.epoch rfl] at change
      rw [← seen_of_found sound found, R.epoch rfl] at mode
      cases change
      cases mode
  | @swapMode errand seen next found mode =>
    obtain ⟨failures, rfl⟩ | ⟨failures, rfl⟩ | ⟨ending, rfl⟩ := errand_cases U S <;>
      exact .onwards _ L rfl none
  | @reload errand seen next lost persistent =>
    obtain ⟨failures, rfl⟩ | ⟨failures, rfl⟩ | ⟨ending, rfl⟩ := errand_cases U S <;>
      exact .onwards _ L rfl none
  | @giveUp errand seen next lost persistent =>
    obtain ⟨failures, rfl⟩ | ⟨failures, rfl⟩ | ⟨ending, rfl⟩ := errand_cases U S <;>
      cases persistent
  | @announce errand seen next =>
    obtain ⟨failures, rfl⟩ | ⟨failures, rfl⟩ | ⟨ending, rfl⟩ := errand_cases U S
    · cases A.route
    · rw [A.credited_flip, beginsEpoch, Bool.or_true]
      exact .begins rfl L
    · obtain ⟨⟨value, rfl⟩, hseen⟩ := S
      obtain rfl : d = false := sound.1
      rw [A.credited_endEpoch hseen]
      exact .returns
  | @software place call call' s' turn =>
    obtain rfl := place_eq_epoch U S
    obtain ⟨tx, stage⟩ := call
    cases turn with
    | exclusive hstage only => cases only
    | optimistic hstage others => obtain rfl : stage = _ := hstage; exact .onwards _ L rfl none
    | serial hstage others begins => obtain rfl : stage = _ := hstage; exact .onwards _ L rfl none
    | failed hstage fails => obtain rfl : stage = _ := hstage; exact .onwards _ L rfl none
    | @rollback err hstage =>
      obtain rfl : stage = _ := hstage
      exact .onwards _ L rfl (software tx (Or.inr ⟨err, rfl, S⟩))
  | @commit place call value s' turn =>
    obtain rfl := place_eq_epoch U S
    obtain ⟨tx, stage⟩ := call
    cases turn with
    | commit hstage commits =>
      obtain rfl : stage = _ := hstage
      exact .onwards _ L rfl (software tx (Or.inl rfl))
  | stay value ticks =>
    obtain rfl : d = true := sound
    obtain ⟨hheuristic, hphase⟩ := L
    refine .commits ticks hheuristic fun hverdict => ?_
    rw [if_pos hverdict] at hphase
    cases hphase
  | goBack value ticks =>
    obtain rfl : d = true := sound
    refine .ends ticks rfl ?_
    by_contra hverdict
    have hphase := L.2
    rw [if_neg hverdict] at hphase
    cases hphase
  | readSoftware place reads => exact .onwards _ L rfl none
  | writeSoftware place tx a v mask => exact .onwards _ L rfl none
  | endSoftware place tx result =>
    cases result with
    | error err => cases hq
    | ok value => exact .onwards _ L rfl none
  | readRegion failures reads => cases U
  | writeRegion failures writes => cases U
  | abort failures r code => cases U
  | endRegion failures r result => cases U

end Worker.Turn

namespace Chronicle

variable {ι : Type} [DecidableEq ι] {r : Runtime} {c c' : Chronicle ι} {i : ι} {q : Request}
  {reply : Reply}

/-! ## The only worker -/

/-- Only one worker did anything. It was not dropped, and its bodies neither failed nor panicked.
Faults may have been injected. -/
inductive Solo (r : Runtime) (i : ι) : Chronicle ι → Prop
  | start : Solo r i (start r)
  | act {c c' : Chronicle ι} (before : Solo r i c) (q : Request) (spares : q.SparesMode)
      (smooth : q.IsSmooth) {reply : Reply} (acts : c.act i q = some (reply, c')) : Solo r i c'
  | faults {c : Chronicle ι} (before : Solo r i c) (f : Faults → Faults) :
      Solo r i (c.withFaults f)

namespace Solo

theorem reachable (S : Solo r i c) : Reachable r c := by
  induction S with
  | start => exact .refl
  | act before q spares smooth acts ih => exact ih.step (.act i q spares acts)
  | faults before f ih => exact ih.step (.faults f)

theorem other (S : Solo r i c) {j : ι} (hj : j ≠ i) : c.system.worker j = .new r := by
  induction S with
  | start => rfl
  | act before q spares smooth acts ih => rw [((turn_of_act acts).2.2.2 j hj).1, ih]
  | faults before f ih => exact ih

theorem lone (S : Solo r i c) : c.Lone r i := fun _ hj => Or.inl (S.other hj)

theorem quiescent (S : Solo r i c) (rests : (c.phase i).isResting = true) : c.Quiescent := by
  intro j
  by_cases hj : j = i
  · rw [hj]
    exact rests
  · rw [phase, S.other hj]
    rfl

end Solo

/-- A run of one worker. -/
theorem solo_of_run {steps : List Request} (S : Solo r i c)
    (smooth : ∀ q ∈ steps, q.SparesMode ∧ q.IsSmooth)
    (h : c.run (steps.map fun q => (i, q)) = some c') : Solo r i c' := by
  induction steps generalizing c with
  | nil =>
    obtain rfl := Option.some.inj h
    exact S
  | cons q steps ih =>
    obtain ⟨⟨reply, c₁⟩, hact, hrest⟩ := Option.bind_eq_some_iff.1 h
    obtain ⟨hspares, hsmooth⟩ := smooth q List.mem_cons_self
    exact ih (.act S q hspares hsmooth hact) (fun q hq => smooth q (List.mem_cons_of_mem _ hq))
      hrest

/-- What is kept of the heuristic of every worker without hardware. -/
theorem unmeasured_of_reachable [Fintype ι] (created : r.Created) (none : r.backend = .none)
    (few : Fintype.card ι < ModeSnapshot.countLimit) (retries : r.config.maxRetries ≠ 0)
    (H : r.config.HasWindows) (h : Reachable r c) (i : ι) :
    (c.system.worker i).heuristic.Unmeasured r.config := by
  refine h.forall_worker (P := fun w _ => w.heuristic.Unmeasured r.config)
    (Heuristic.unmeasured_new H) (fun {c c' i q reply} hc acts M => ?_) i
  exact (Worker.learns_of_act (worker_of_act acts)).unmeasured
    (unaided_of_reachable created none few retries hc i) M

variable [Fintype ι]

/-- The switches in the store, beside what was there before, and in all tallies. -/
noncomputable def switched (r : Runtime) (c : Chronicle ι) (d : Direction) : UInt64 :=
  c.system.runtime.metrics.counter d.name - r.metrics.counter d.name +
    ∑ i, (c.system.worker i).context.tally.switches d

omit [DecidableEq ι] in
theorem switched_start (r : Runtime) (d : Direction) :
    (start r : Chronicle ι).switched r d = 0 := by
  have tallies : ∑ i : ι, ((start r : Chronicle ι).system.worker i).context.tally.switches d = 0 :=
    Finset.sum_eq_zero fun i _ => by cases d <;> rfl
  rw [switched, tallies, add_zero]
  exact sub_self _

/-- A step counts what its phase says. -/
theorem switched_of_act (created : r.Created) (h : Reachable r c)
    (acts : c.act i q = some (reply, c')) (d : Direction) :
    c'.switched r d = c.switched r d + (c.phase i).credited q d := by
  have hworker := worker_of_act acts
  have C := (Worker.credits_of_act ((System.valid_of_reachable created h.system).sound i)
    (System.applied_of_reachable created h.system i) hworker).switches d
  have sum := sum_add_of_others (fun j => (c.system.worker j).context.tally.switches d)
    (fun j => (c'.system.worker j).context.tally.switches d)
    (fun j (hj : j ≠ i) => by rw [((turn_of_act acts).2.2.2 j hj).1])
  rw [switched, switched, phase]
  linear_combination C + sum

/-- So many rounds are over, and so many calls committed in the epoch of the next. -/
structure Round (r : Runtime) (c : Chronicle ι) (i : ι) (last e m : Nat) (stage : Stage) :
    Prop where
  /-- The attempts that ended were refused or ran in software. -/
  trials : ∀ t ∈ c.log.filterMap Event.trial?, t.IsRefused ∨ t.IsPlain
  /-- Every round made one attempt in hardware. -/
  attempts : hardwareTrials (c.log.filterMap Event.trial?) = e + stage.attempts
  /-- It turned the runtime to software once. -/
  toSoftware : c.switched r .toSoftware = .ofNat (e + stage.flips)
  /-- And returned it to hardware. -/
  toHardware : c.switched r .toHardware = .ofNat e
  /-- A round has the calls of all windows. -/
  returned : c.returned.length + stage.unreturned = r.config.commitsIn (last + 1) * e + m
  /-- The heuristic knows how many calls committed in the epoch. -/
  position : stage.Position r.config last (c.system.worker i).heuristic m
  /-- Between calls there is one at least. -/
  settled : (c.phase i).isResting = true → stage = .running → m ≠ 0

omit [Fintype ι] in
/-- Attempts in software are none in hardware. -/
theorem hardwareTrials_of_plain {trials : List Trial} (plain : ∀ t ∈ trials, t.IsPlain) :
    hardwareTrials trials = 0 :=
  List.countP_eq_zero.2 fun t ht => by simpa using (plain t ht).1

omit [DecidableEq ι] in
/-- A round that goes on, or comes to its next stage, is one round. -/
theorem Round.of_lap {last e m k : Nat} {stage stage' : Stage} {trials : List Trial}
    {credited : Direction → UInt64} (G : c.Round r i last e m stage)
    (lap : Lap (c.phase i) (c.system.worker i).heuristic (c'.phase i)
      (c'.system.worker i).heuristic stage stage' trials credited k)
    (log : c'.log.filterMap Event.trial? = c.log.filterMap Event.trial? ++ trials)
    (switched : ∀ d, c'.switched r d = c.switched r d + credited d)
    (returned : c'.returned.length = c.returned.length + k)
    (M : (c.system.worker i).heuristic.Unmeasured r.config) (H : r.config.HasWindows)
    (L : r.config.IsLastWindow last) : ∃ e m, c'.Round r i last e m stage' := by
  have known (h : ∀ t ∈ trials, t.IsRefused ∨ t.IsPlain) :
      ∀ t ∈ c'.log.filterMap Event.trial?, t.IsRefused ∨ t.IsPlain := by
    rw [log]
    exact List.forall_mem_append.2 ⟨G.trials, h⟩
  have attempts : hardwareTrials (c'.log.filterMap Event.trial?) =
      e + stage.attempts + hardwareTrials trials := by
    rw [log, ← G.attempts]
    exact List.countP_append
  have elsewhere {m : Nat} {stage : Stage} (other : stage ≠ .running) :
      (c'.phase i).isResting = true → stage = .running → m ≠ 0 := fun _ h => absurd h other
  have underway {m : Nat} (h : (c'.phase i).isResting = false) :
      (c'.phase i).isResting = true → Stage.running = .running → m ≠ 0 :=
    fun rests => absurd (h.symm.trans rests) Bool.false_ne_true
  have nothing : ∀ t ∈ ([] : List Trial), t.IsRefused ∨ t.IsPlain := List.forall_mem_nil _
  have software := switched .toSoftware
  have hardware := switched .toHardware
  rw [G.toSoftware] at software
  rw [G.toHardware] at hardware
  have calls := G.returned
  have position := G.position
  cases lap with
  | goes stage kept rests plain =>
    refine ⟨e, m, known fun t ht => Or.inr (plain t ht), ?_, ?_, ?_, ?_, ?_, ?_⟩
    · rw [attempts, hardwareTrials_of_plain plain, Nat.add_zero]
    · rw [software, add_zero]
    · rw [hardware, add_zero]
    · rw [returned, Nat.add_zero, calls]
    · rw [kept]
      exact position
    · exact fun h => G.settled (rests h)
  | refused rests refused =>
    refine ⟨e, m, known (List.forall_mem_singleton.2 (Or.inl refused)), ?_, ?_, ?_, ?_, position,
      elsewhere (by decide)⟩
    · rw [attempts, hardwareTrials, List.countP_singleton, if_pos (by simpa using refused.1)]
      rfl
    · rw [software, add_zero]
      rfl
    · rw [hardware, add_zero]
    · rw [returned, Nat.add_zero]
      exact calls
  | turns rests =>
    refine ⟨e, m, known nothing, attempts, ?_, ?_, ?_, position, elsewhere (by decide)⟩
    · rw [software, add_zero]
      rfl
    · rw [hardware, add_zero]
    · rw [returned, Nat.add_zero]
      exact calls
  | begins rests begun =>
    obtain rfl : m = 0 := position
    refine ⟨e, 0, known nothing, attempts, ?_, ?_, ?_, ?_, ?_⟩
    · rw [software]
      exact (UInt64.ofNat_add e 1).symm
    · rw [hardware]
      exact add_zero _
    · rw [returned, Nat.add_zero]
      exact calls
    · exact Heuristic.reached_beginEpoch M H last begun
    · exact underway rests
  | commits ticks recorded verdict =>
    have next := Heuristic.Reached.recordSoftwareCommit position M H L ticks
    rw [if_neg verdict, ← recorded] at next
    refine ⟨e, m + 1, known nothing, attempts, ?_, ?_, ?_, next, fun _ _ => m.succ_ne_zero⟩
    · rw [software, add_zero]
    · rw [hardware, add_zero]
    · rw [returned, Nat.add_right_comm, calls, Nat.add_assoc]
  | ends ticks rests verdict =>
    have complete := Heuristic.Reached.recordSoftwareCommit position M H L ticks
    rw [if_pos verdict] at complete
    refine ⟨e, m + 1, known nothing, attempts, ?_, ?_, ?_, complete, ?_⟩
    · rw [software, add_zero]
      rfl
    · rw [hardware, add_zero]
    · rw [returned, Nat.add_zero]
      exact congrArg (· + 1) calls
    · exact elsewhere (by decide)
  | returns =>
    obtain rfl : m = r.config.commitsIn (last + 1) := position
    refine ⟨e + 1, 0, known nothing, attempts, ?_, ?_, ?_, rfl, elsewhere (by decide)⟩
    · rw [software]
      exact add_zero _
    · rw [hardware]
      exact (UInt64.ofNat_add e 1).symm
    · rw [returned, Nat.mul_add, Nat.mul_one]
      exact calls

/-- What the only worker finds in the mode word. -/
theorem Solo.reflects (S : Solo r i c) (created : r.Created) :
    c.shared.Reflects ((c.phase i).stake (c.system.worker i).deferred) := by
  have B := (System.valid_of_reachable created S.reachable.system).balanced
  refine ⟨fun hi => ?_, fun hi => ?_, fun hi => ?_⟩
  · exact S.lone.mode_of_none created S.reachable hi
  · exact B.deferred_ne_zero (i := i) (congrArg Stake.isDeferred hi)
  · exact B.eq_of_epoch hi (S.lone.stake created S.reachable)

/-- The only worker is always in the middle of one round. -/
theorem round_of_solo (created : r.Created) (none : r.backend = .none)
    (few : Fintype.card ι < ModeSnapshot.countLimit) (retries : r.config.maxRetries ≠ 0)
    (H : r.config.HasWindows) {last : Nat} (L : r.config.IsLastWindow last) (S : Solo r i c) :
    (c.phase i).Solitary c.shared ∧
      ∃ e m, c.Round r i last e m ((c.phase i).stage (c.system.worker i).deferred) := by
  induction S with
  | start =>
    exact ⟨trivial, 0, 0, nofun, rfl, switched_start r _, switched_start r _, rfl, rfl, nofun⟩
  | faults before f ih =>
    obtain ⟨solitary, e, m, G⟩ := ih
    exact ⟨solitary, e, m, G.trials, G.attempts, G.toSoftware, G.toHardware, G.returned,
      G.position, G.settled⟩
  | @act c c' before q spares smooth reply acts ih =>
    obtain ⟨solitary, e, m, G⟩ := ih
    have hc := before.reachable
    have hc' := hc.step (.act i q spares acts)
    obtain ⟨T, -, hlog, -⟩ := turn_of_act acts
    rw [backend_eq_none none hc] at T
    have hworker := worker_of_act acts
    have U := unaided_of_reachable created none few retries hc i
    have U' := unaided_of_reachable created none few retries hc' i
    have sound := (System.valid_of_reachable created hc.system).sound i
    have A : (c.phase i).Applied := System.applied_of_reachable created hc.system i
    have R := before.reflects created
    refine ⟨T.solitary smooth U sound A R solitary, ?_⟩
    refine G.of_lap (T.lap smooth U ?_ sound A R solitary (Worker.learns_of_act hworker)
      (c.notes i).writes) ?_ (switched_of_act created hc acts) ?_
      (unmeasured_of_reachable created none few retries H hc i) H L
    · intro failures hp'
      rw [hp'] at U'
      cases U'
    · rw [hlog, List.filterMap_append, events, Phase.filterMap_events rfl rfl]
    · rw [returned_of_act acts, List.length_append]
      cases (c'.phase i).returns? q <;> rfl

/-! ## Statistics -/

omit [DecidableEq ι] [Fintype ι] in
/-- The attempts in hardware that have ended. -/
theorem count_ending_hardware (l : List Event) :
    (l.filterMap Event.ending?).count .hardware = hardwareTrials (l.filterMap Event.trial?) := by
  have path : Event.ending? = fun e => e.trial?.map Trial.path := by
    funext e
    cases e <;> rfl
  rw [path, ← List.map_filterMap, List.count, List.countP_map]
  exact List.countP_congr fun t _ => by simp

omit [DecidableEq ι] [Fintype ι] in
/-- If hardware refused all of them, they are the failures of no class of their own. -/
theorem count_failure_other {l : List Event}
    (h : ∀ t ∈ l.filterMap Event.trial?, t.IsRefused ∨ t.IsPlain) :
    (l.filterMap Event.failure?).count .other = hardwareTrials (l.filterMap Event.trial?) := by
  induction l with
  | nil => rfl
  | cons e l ih =>
    cases e with
    | ended t =>
      obtain ⟨ht, hl⟩ := List.forall_mem_cons.1 h
      have rest := ih hl
      have trials : (Event.ended t :: l).filterMap Event.trial? = t :: l.filterMap Event.trial? :=
        rfl
      rw [trials, hardwareTrials, List.countP_cons, ← hardwareTrials, ← rest]
      obtain ⟨path, writes, outcome⟩ := t
      rcases ht with ⟨hpath, houtcome⟩ | ⟨hpath, houtcome | ⟨err, houtcome, hclass⟩⟩
      · obtain rfl : path = .hardware := hpath
        obtain rfl : outcome = _ := houtcome
        exact List.count_cons_self
      · obtain rfl : outcome = _ := houtcome
        rw [if_neg (by simpa using hpath)]
        rfl
      · obtain rfl : outcome = _ := houtcome
        have failures : (Event.ended ⟨path, writes, .failed err⟩ :: l).filterMap Event.failure? =
            err.abortClass :: l.filterMap Event.failure? := rfl
        rw [if_neg (by simpa using hpath), failures, hclass]
        exact List.count_cons_of_ne (by decide : AbortClass.validation ≠ .other)
    | _ => exact ih h

omit [DecidableEq ι] in
/-- No body has panicked. -/
theorem Round.calm {last e m : Nat} {stage : Stage} (G : c.Round r i last e m stage) :
    c.Calm := by
  intro e he
  cases e with
  | ended t =>
    have ht := G.trials t (List.mem_filterMap.2 ⟨.ended t, he, rfl⟩)
    obtain ⟨path, writes, outcome⟩ := t
    rcases ht with ⟨-, houtcome⟩ | ⟨-, houtcome | ⟨err, houtcome, -⟩⟩ <;>
      obtain rfl : outcome = _ := houtcome <;> rfl
  | _ => rfl

/-- What the statistics show between the calls of the only worker, if a round has so many calls. -/
structure Periodic (r : Runtime) (c : Chronicle ι) (i : ι) (period : Nat) : Prop where
  /-- Every round that has begun made one attempt in hardware. -/
  attempts : (c.log.filterMap Event.beginning?).count .hardware = c.returned.length ⌈/⌉ period
  /-- They are the aborts of no class of their own. -/
  aborts : c.recorded r (.abort .other) = .ofNat (c.returned.length ⌈/⌉ period)
  /-- Every round that has begun turned the runtime to software. -/
  toSoftware : c.switched r .toSoftware = .ofNat (c.returned.length ⌈/⌉ period)
  /-- Every round that is over returned it to hardware. -/
  toHardware : c.switched r .toHardware = .ofNat (c.returned.length / period)
  /-- An epoch is under way just when a round is not over. -/
  deferred : (c.system.worker i).deferred = true ↔ ¬ period ∣ c.returned.length

omit [DecidableEq ι] [Fintype ι] in
/-- Calls in so many rounds that are over, and so many of the next. -/
theorem ceilDiv_rounds {n period e m : Nat} (calls : n = period * e + m) (below : m < period) :
    n / period = e ∧ n ⌈/⌉ period = e + (if m = 0 then 0 else 1) ∧ (period ∣ n ↔ m = 0) := by
  have hpos : 0 < period := Nat.zero_lt_of_lt below
  subst calls
  refine ⟨?_, ?_, ?_⟩
  · rw [Nat.mul_add_div hpos, Nat.div_eq_of_lt below, Nat.add_zero]
  · rw [Nat.ceilDiv_eq_add_pred_div, Nat.add_assoc, Nat.add_sub_assoc (by omega),
      Nat.mul_add_div hpos]
    congr 1
    split
    · next hzero => exact Nat.div_eq_of_lt (by omega)
    · next hne => exact Nat.div_eq_of_lt_le (by omega) (by omega)
  · rw [← Nat.dvd_add_iff_right (Nat.dvd_mul_right ..)]
    exact ⟨fun h => Nat.eq_zero_of_dvd_of_lt h below, fun h => h ▸ Nat.dvd_zero _⟩

omit [DecidableEq ι] in
/-- Between calls a round has begun just when calls committed in its epoch. -/
theorem Round.between {last e m : Nat}
    (G : c.Round r i last e m ((c.phase i).stage (c.system.worker i).deferred))
    (H : r.config.HasWindows) (rests : (c.phase i).isResting = true) :
    ((c.system.worker i).deferred = true ↔ m ≠ 0) ∧ m < r.config.commitsIn (last + 1) ∧
      c.Round r i last e m (if m = 0 then .waiting else .running) := by
  obtain ⟨last', hlast⟩ := Phase.isResting_iff.1 rests
  have stage : (c.phase i).stage (c.system.worker i).deferred =
      if (c.system.worker i).deferred then .running else .waiting := by
    rw [hlast]
    rfl
  rw [stage] at G
  cases hd : (c.system.worker i).deferred with
  | false =>
    rw [hd, if_neg Bool.false_ne_true] at G
    obtain rfl : m = 0 := G.position
    have nonempty : 0 < r.config.commitsIn (last + 1) := by
      rw [HybridConfig.commitsIn, Finset.sum_range_succ]
      exact Nat.add_pos_right _ (H.window_pos last)
    exact ⟨⟨fun h => absurd h Bool.false_ne_true, absurd rfl⟩, nonempty, G⟩
  | true =>
    rw [hd, if_pos rfl] at G
    have hm := G.settled rests rfl
    rw [if_neg hm]
    exact ⟨⟨fun _ => hm, fun _ => rfl⟩, Heuristic.Reached.lt G.position, G⟩

theorem periodic_of_solo (created : r.Created) (none : r.backend = .none)
    (few : Fintype.card ι < ModeSnapshot.countLimit) (retries : r.config.maxRetries ≠ 0)
    (H : r.config.HasWindows) {last : Nat} (L : r.config.IsLastWindow last) (S : Solo r i c)
    (rests : (c.phase i).isResting = true) :
    c.Periodic r i (r.config.commitsIn (last + 1)) := by
  obtain ⟨-, e, m, G⟩ := round_of_solo created none few retries H L S
  obtain ⟨deferred, below, G⟩ := G.between H rests
  have quiescent := S.quiescent rests
  obtain ⟨A, E⟩ := exact_of_reachable S.reachable G.calm
  have attempts : (c.log.filterMap Event.beginning?).count .hardware =
      hardwareTrials (c.log.filterMap Event.trial?) :=
    (A.count_beginning_of_quiescent quiescent .hardware).trans (count_ending_hardware c.log)
  have aborts : c.recorded r (.abort .other) =
      .ofNat (hardwareTrials (c.log.filterMap Event.trial?)) :=
    ((E quiescent).aborts .other).trans (congrArg _ (count_failure_other G.trials))
  -- Between calls a round that has begun is past its attempt and its switch to software.
  have begun : e + (if m = 0 then Stage.waiting else Stage.running).attempts =
      e + (if m = 0 then 0 else 1) ∧
      e + (if m = 0 then Stage.waiting else Stage.running).flips = e + (if m = 0 then 0 else 1) ∧
      (if m = 0 then Stage.waiting else Stage.running).unreturned = 0 := by
    split <;> exact ⟨rfl, rfl, rfl⟩
  have calls := G.returned
  rw [begun.2.2, Nat.add_zero] at calls
  obtain ⟨floor, ceil, divides⟩ := ceilDiv_rounds calls below
  refine ⟨?_, ?_, ?_, ?_, ?_⟩
  · rw [attempts, G.attempts, begun.1, ceil]
  · rw [aborts, G.attempts, begun.1, ceil]
  · rw [G.toSoftware, begun.2.1, ceil]
  · rw [G.toHardware, floor]
  · rw [deferred, divides]

/-- A runtime without hardware runs everything in software, for any number of workers that can be
counted in the mode word and any interleaving: nobody takes the global lock, no body runs in
hardware, and every call makes one attempt in hardware at most. And while one worker is the only one
to make calls, all of which succeed, they come in rounds of as many calls as there are commits in
all windows of an epoch; in every round one attempt is made in hardware, the runtime is turned to
software, and it is returned to hardware at the end. -/
theorem softwareOnly_and_periodic {config : HybridConfig} {data : List Word} {metrics : Metrics}
    (create : Runtime.create .none config data metrics = .ok r)
    (few : Fintype.card ι < 2 ^ 31) :
    (∀ c : Chronicle ι, Reachable r c → c.SoftwareOnly) ∧
      ∃ last, config.IsLastWindow last ∧ ∀ (i : ι) (c : Chronicle ι), Solo r i c →
        (c.phase i).isResting = true → c.Periodic r i (config.commitsIn (last + 1)) := by
  have created : r.Created := ⟨_, _, _, _, create⟩
  have none := (Runtime.create_ok create).2
  obtain ⟨validate, hr⟩ := Runtime.create_eq_ok create
  have hconfig : r.config = config := by rw [hr]; rfl
  obtain ⟨H, retries⟩ := HybridConfig.hasWindows_of_validate validate
  obtain ⟨last, L⟩ := H.exists_isLastWindow
  rw [← hconfig] at H retries L ⊢
  exact ⟨fun c => softwareOnly_of_reachable created none few retries, last, L,
    fun i c => periodic_of_solo created none few retries H L⟩

/-- With windows of one and two commits, one worker makes three calls in its first epoch, and a
fourth one that begins the next. -/
theorem softwareOnly_and_periodic_of_four_calls :
    ∃ (r : Runtime) (c : Chronicle Bool),
      Runtime.create .none { windowInitial := 1, windowMax := 2 } [] .empty = .ok r ∧
      Fintype.card Bool < 2 ^ 31 ∧ Solo r false c ∧ (c.phase false).isResting = true ∧
      c.returned.length = 4 ∧ c.SoftwareOnly ∧
      (c.log.filterMap Event.beginning?).count .hardware = 2 ∧
      c.recorded r (.abort .other) = 2 ∧ c.switched r .toSoftware = 2 ∧
      c.switched r .toHardware = 1 ∧ (c.system.worker false).deferred = true := by
  let config : HybridConfig := { windowInitial := 1, windowMax := 2 }
  let opening : List Request := [.call, .advance, .advance, .account 1, .advance, .advance,
    .advance, .advance, .advance, .advance, .advance, .endBody (.ok 1), .advance, .account 1]
  let further : List Request := [.call, .advance, .advance, .endBody (.ok 1), .advance, .account 1]
  let steps : List Request :=
    opening ++ further ++ further ++ [.advance, .advance, .advance] ++ opening
  have facts : ((Runtime.create .none config [] .empty).toOption.bind fun r =>
      ((start r : Chronicle Bool).run (steps.map fun q => (false, q))).map fun c =>
        ((c.phase false).isResting, c.returned.length)) = some (true, 4) := by
    decide +kernel
  obtain ⟨r, hcreate, hrun⟩ := Option.bind_eq_some_iff.1 facts
  obtain ⟨c, hrun, hc⟩ := Option.map_eq_some_iff.1 hrun
  obtain ⟨rests, calls⟩ := Prod.mk.inj hc
  have create := Runtime.create_of_toOption hcreate
  have few : Fintype.card Bool < 2 ^ 31 := by decide
  have smooth : ∀ q ∈ steps, q.SparesMode ∧ q.IsSmooth := by
    simp [steps, opening, further, Request.SparesMode, Request.IsSmooth]
  have S : Solo r false c := solo_of_run .start smooth hrun
  obtain ⟨software, last, L, periodic⟩ := softwareOnly_and_periodic (ι := Bool) create few
  have hlast : last = 1 := L.unique ⟨rfl, by decide⟩
  have P := periodic false c S rests
  have period : config.commitsIn (last + 1) = 3 := by
    rw [hlast]
    rfl
  rw [period] at P
  have attempts := P.attempts
  have aborts := P.aborts
  have toSoftware := P.toSoftware
  have toHardware := P.toHardware
  have deferred := P.deferred
  rw [calls] at attempts aborts toSoftware toHardware deferred
  exact ⟨r, c, create, few, S, rests, calls, software c S.reachable, attempts, aborts, toSoftware,
    toHardware, deferred.2 (by decide)⟩

end Chronicle

end HybridTM
