import HybridTM.Proofs.Statistics
import HybridTM.Proofs.SwitchBooks
import Mathlib.Tactic.LinearCombination

/-!
# Switches and their counters

Beside the workers on a runtime a switchboard keeps a log of the changes of the mode, read off the
mode word before and after each step, and what each worker has moved to the counters of the store.

Every worker counts the changes between hardware and software that it makes, with one exception: a
call that joined an epoch and is unwound by a panic may be the last to leave, and then nobody counts
that the runtime returned to hardware. So the two counters differ by the mode and by these
departures (`Switchboard.reckoned_of_reachable`).
-/

set_option autoImplicit false

namespace HybridTM

open scoped UInt64.CommRing

/-! ## The log -/

/-- A change of the mode. -/
structure Passage (ι : Type) where
  /-- Who made it. -/
  agent : ι
  /-- Whether the call that made it was being unwound. -/
  unwinding : Bool
  /-- The mode before it. -/
  before : Mode
  /-- The mode after it. -/
  after : Mode

namespace Passage

variable {ι : Type}

/-- Whether it is a switch in a direction. -/
def leads (x : Passage ι) (d : Direction) : Bool := d.leads x.before x.after

/-- Whether it is one that the worker counts. -/
def counts (x : Passage ι) (d : Direction) : Bool := x.leads d && !x.unwinding

end Passage

/-- Whether a worker leaves an epoch that it joined while its call is unwound. -/
def Phase.isUnwinding : Phase → Bool
  | .switching errand _ => errand.isUnwinding
  | _ => false

/-- Whether a worker is in the middle of beginning or leaving an epoch. -/
def Phase.isTurning : Phase → Bool
  | .switching (.register _) _ | .switching (.flip _) _ => true
  | .switching (.leave _) _ | .switching (.endEpoch _) _ => true
  | _ => false

/-- Workers on one runtime and the changes of the mode that they made. -/
structure Switchboard (ι : Type) where
  /-- The workers and their runtime. -/
  system : System ι
  /-- The changes of the mode, oldest first. -/
  log : List (Passage ι)
  /-- What each worker has moved to the counters. -/
  moved : ι → Direction → UInt64

namespace Switchboard

variable {ι : Type} [DecidableEq ι]

/-- New workers on a runtime. -/
def start (r : Runtime) : Switchboard ι := ⟨.start r, [], fun _ _ => 0⟩

/-- The phase of a worker. -/
def phase (x : Switchboard ι) (i : ι) : Phase := (x.system.worker i).phase

/-- The mode. -/
def mode (x : Switchboard ι) : Mode := x.system.runtime.mode.mode

/-- A counter of switches. -/
def counter (x : Switchboard ι) (d : Direction) : UInt64 :=
  x.system.runtime.metrics.counter d.name

/-- The switches in the tally of a worker. -/
def tallied (x : Switchboard ι) (i : ι) (d : Direction) : UInt64 :=
  (x.system.worker i).context.tally.switches d

/-- The change of the mode in a step of one worker to another system. -/
def passages (x : Switchboard ι) (i : ι) (s : System ι) : List (Passage ι) :=
  if s.runtime.mode.mode = x.mode then []
  else [⟨i, (x.phase i).isUnwinding, x.mode, s.runtime.mode.mode⟩]

/-- The switchboard after a step of one worker to another system. -/
def after (x : Switchboard ι) (i : ι) (s : System ι) : Switchboard ι where
  system := s
  log := x.log ++ x.passages i s
  moved := Function.update x.moved i fun d =>
    x.moved i d + (s.runtime.metrics.counter d.name - x.counter d)

/-- One step of one worker. -/
def act (x : Switchboard ι) (i : ι) (q : Request) : Option (Reply × Switchboard ι) :=
  (x.system.act i q).map fun (reply, s) => (reply, x.after i s)

/-- Other faults are injected. -/
def withFaults (x : Switchboard ι) (f : Faults → Faults) : Switchboard ι :=
  { x with system := x.system.withFaults f }

/-- A worker makes a step, or other faults are injected. -/
inductive Step (x : Switchboard ι) : Switchboard ι → Prop
  | act (i : ι) (q : Request) (spares : q.SparesMode) {reply : Reply} {x' : Switchboard ι}
      (acts : x.act i q = some (reply, x')) : Step x x'
  | faults (f : Faults → Faults) : Step x (x.withFaults f)

/-- The switchboards that steps lead to from new workers on a runtime. -/
def Reachable (r : Runtime) (x : Switchboard ι) : Prop :=
  Relation.ReflTransGen Step (start r) x

/-- The switchboard after steps in the given order, if all of them are possible. -/
def run (x : Switchboard ι) : List (ι × Request) → Option (Switchboard ι)
  | [] => some x
  | (i, q) :: steps => (x.act i q).bind fun (_, x') => x'.run steps

variable {x x' : Switchboard ι} {i : ι} {q : Request} {reply : Reply} {r : Runtime}

theorem steps_of_run {steps : List (ι × Request)} (spares : ∀ y ∈ steps, y.2.SparesMode)
    (h : x.run steps = some x') : Relation.ReflTransGen Step x x' := by
  refine reflTransGen_of_allowed (fun _ => rfl) (fun x y steps x' hq h => ?_) spares h
  obtain ⟨⟨reply, x₁⟩, hact, hrest⟩ := Option.bind_eq_some_iff.1 h
  exact ⟨x₁, .act y.1 y.2 hq hact, hrest⟩

theorem act_eq_some (h : x.act i q = some (reply, x')) :
    ∃ s, x.system.act i q = some (reply, s) ∧ x' = x.after i s := by
  obtain ⟨⟨reply', s⟩, hact, heq⟩ := Option.map_eq_some_iff.1 h
  obtain ⟨rfl, rfl⟩ := Prod.mk.inj heq
  exact ⟨s, hact, rfl⟩

theorem Reachable.system (h : Reachable r x) : System.Reachable r x.system := by
  induction h with
  | refl => exact .refl
  | tail _ hstep ih =>
    refine .tail ih ?_
    cases hstep with
    | act i q spares acts =>
      obtain ⟨s, hact, rfl⟩ := act_eq_some acts
      exact .act i q spares hact
    | faults f => exact .faults f

/-! ## What the counters say -/

/-- The number of changes that a worker made and counts. -/
def own (x : Switchboard ι) (i : ι) (d : Direction) : Nat :=
  ((x.log.filter (·.counts d)).map Passage.agent).count i

/-- What a worker has counted of its changes, or is about to count. -/
def account (x : Switchboard ι) (i : ι) (d : Direction) : UInt64 :=
  x.moved i d + x.tallied i d + (x.phase i).owed d

variable [Fintype ι]

/-- The switches in the store, beside what was there before, and in all tallies. -/
noncomputable def recorded (x : Switchboard ι) (r : Runtime) (d : Direction) : UInt64 :=
  x.counter d - r.metrics.counter d.name + ∑ i, x.tallied i d

/-- What the log says about the counters. -/
structure Reckoned (x : Switchboard ι) (r : Runtime) : Prop where
  /-- Every worker has counted, or is about to count, the switches that it made while its call was
  not unwound. -/
  own : ∀ i d, x.account i d = .ofNat (x.own i d)
  /-- The store gained what the workers moved there. -/
  store : ∀ d, x.counter d = r.metrics.counter d.name + ∑ i, x.moved i d
  /-- The runtime turns to software and back in turn. -/
  alternate : x.log.countP (·.leads .toSoftware) =
    x.log.countP (·.leads .toHardware) + if x.mode = .sw then 1 else 0
  /-- A call that is unwound changes the mode only if it is the last to leave an epoch. -/
  unwinding : ∀ y ∈ x.log, y.unwinding = true → y.leads .toHardware = true

/-! ## Steps -/

omit [DecidableEq ι] [Fintype ι] in
/-- Nobody owes anything who has nothing to show. -/
theorem owed_of_unshown {p : Phase} (h : p.unshown? = none) (d : Direction) : p.owed d = 0 := by
  rw [Phase.owed, h]

omit [DecidableEq ι] [Fintype ι] in
/-- Nobody owes anything who is not beginning or leaving an epoch. -/
theorem owed_of_not_isTurning {p : Phase} (A : p.Applied) (h : p.isTurning = false)
    (d : Direction) : p.owed d = 0 := by
  cases hshown : p.unshown? with
  | none => exact owed_of_unshown hshown d
  | some shown =>
    obtain ⟨errand, seen, next⟩ := shown
    obtain ⟨change, mode⟩ := A errand seen next hshown
    have other : d.leads seen.mode next.mode = false := by
      rw [Phase.unshown?_eq_some_iff] at hshown
      rw [hshown] at h
      have R := Errand.route change mode
      obtain ⟨before, _, _⟩ := seen
      obtain ⟨after, _, _⟩ := next
      cases R with
      | lock failures => cases d <;> rfl
      | unlock ending => cases d <;> rfl
      | _ => cases h
    rw [Phase.owed, hshown]
    simp only [Errand.credited, other, Bool.false_and, Bool.false_eq_true, if_false]

/-- What a step of a worker does to the log and to the account of the worker. -/
inductive Effect (x : Switchboard ι) (i : ι) (x' : Switchboard ι) : Prop
  /-- Nothing. -/
  | kept (log : x'.log = x.log) (mode : x'.mode = x.mode)
      (account : ∀ d, x'.account i d = x.account i d)
  /-- It adds a change of the mode by an errand. -/
  | switched (errand : Errand) (route : errand.Route x.mode x'.mode)
      (left : errand.isUnwinding = true → x.mode = .sw)
      (log : x'.log = x.log ++ [⟨i, errand.isUnwinding, x.mode, x'.mode⟩])
      (account : ∀ d, x'.account i d = x.account i d + errand.credited x.mode x'.mode d)

theorem effect_of_act (created : r.Created) (hx : Reachable r x)
    (h : x.act i q = some (reply, x')) : Effect x i x' := by
  obtain ⟨s, hact, rfl⟩ := act_eq_some h
  have V := System.valid_of_reachable created hx.system
  have A : (x.phase i).Applied := System.applied_of_reachable created hx.system i
  -- What is counted is in the store or in the tally.
  have booked (d : Direction) : (x.after i s).moved i d + (x.after i s).tallied i d =
      x.moved i d + x.tallied i d + (x.phase i).credited q d := by
    have C := (Worker.credits_of_act (V.sound i) A (System.worker_of_act hact)).switches d
    simp only [after, Function.update_self, tallied, counter, phase]
    linear_combination C
  have account {n : Direction → UInt64}
      (owed : ∀ d, ((x.after i s).phase i).owed d + (x.phase i).credited q d =
        (x.phase i).owed d + n d) (d : Direction) :
      (x.after i s).account i d = x.account i d + n d := by
    rw [Switchboard.account, Switchboard.account, booked]
    linear_combination owed d
  have quiet (mode : (x.after i s).mode = x.mode)
      (owed : ∀ d, ((x.after i s).phase i).owed d + (x.phase i).credited q d =
        (x.phase i).owed d) : Effect x i (x.after i s) := by
    refine .kept ?_ mode fun d => ?_
    · have hpassages : x.passages i s = [] := if_pos mode
      rw [after, hpassages, List.append_nil]
    · rw [account (n := fun _ => 0) (fun d => by rw [owed, add_zero]) d, add_zero]
  have P : Worker.Turn.Passage x.system.runtime.engine.shared (x.phase i) q
      s.runtime.engine.shared (s.worker i).phase := System.passage_of_act V hact
  have hmode : (x.after i s).mode = s.runtime.engine.shared.mode.mode := rfl
  have hphase : (x.after i s).phase i = (s.worker i).phase := rfl
  generalize s.runtime.engine.shared = s' at P hmode
  generalize (s.worker i).phase = p' at P hphase
  cases P with
  | kept mode before after =>
    refine quiet (hmode.trans mode) fun d => ?_
    have idle : (x.phase i).credited q d = 0 := by
      cases q with
      | advance => exact owed_of_unshown before d
      | _ => rfl
    rw [hphase, owed_of_unshown after, idle, owed_of_unshown before, add_zero]
  | flushed request =>
    refine quiet hmode fun d => ?_
    rw [hphase, request]
    exact add_zero _
  | shown hp request after =>
    refine quiet hmode fun d => ?_
    rw [hphase, owed_of_unshown after, request, zero_add]
    rfl
  | @swapped errand next hp request change shared mode =>
    rw [shared] at hmode
    refine .switched errand ?_ ?_ ?_ ?_
    · rw [hmode]
      exact Errand.route change mode
    · intro hunwinding
      have hstake : x.system.stake i = errand.before := by
        rw [System.stake, Worker.stake, ← phase, hp]
        rfl
      cases errand with
      | leave ending => exact V.balanced.mode_of_joined hstake
      | _ => cases hunwinding
    · have hpassages : x.passages i s =
          [⟨i, (x.phase i).isUnwinding, x.mode, (x.after i s).mode⟩] :=
        if_neg fun heq => mode (heq.symm.trans hmode)
      rw [after, hpassages, hp]
      rfl
    · refine account fun d => ?_
      rw [hphase, hmode, request, hp]
      exact (add_comm _ _).trans (by rfl)

omit [Fintype ι] in
/-- It leaves the accounts of the others alone, and moves to the store what it moved there. -/
theorem others_of_act (h : x.act i q = some (reply, x')) :
    (∀ j, j ≠ i → x'.moved j = x.moved j ∧ ∀ d, x'.account j d = x.account j d) ∧
      ∀ d, x'.counter d + x.moved i d = x.counter d + x'.moved i d := by
  obtain ⟨s, hact, rfl⟩ := act_eq_some h
  constructor
  · intro j hj
    have hmoved : (x.after i s).moved j = x.moved j := Function.update_of_ne hj _ _
    have hworker : s.worker j = x.system.worker j := (System.turn_of_act hact).2 j hj
    refine ⟨hmoved, fun d => ?_⟩
    rw [account, account, hmoved, tallied, tallied, phase, phase]
    simp only [after, hworker]
  · intro d
    simp only [after, Function.update_self, counter]
    ring

/-! ## Runs -/

/-- The log accounts for the counters. -/
theorem reckoned (created : r.Created) (h : Reachable r x) : x.Reckoned r := by
  induction h with
  | refl =>
    have hmode : (start r : Switchboard ι).mode = .hw := congrArg ModeSnapshot.mode created.mode.2
    refine ⟨fun i d => ?_, fun d => ?_, ?_, nofun⟩
    · cases d <;> rfl
    · have hmoved : ∑ i, (start r : Switchboard ι).moved i d = 0 := Finset.sum_const_zero
      rw [hmoved, add_zero]
      rfl
    · rw [hmode]
      rfl
  | @tail x x' hx hstep ih =>
    cases hstep with
    | faults f => exact ⟨ih.own, ih.store, ih.alternate, ih.unwinding⟩
    | act i q spares acts =>
      obtain ⟨others, moves⟩ := others_of_act acts
      have store (d : Direction) : x'.counter d = r.metrics.counter d.name + ∑ j, x'.moved j d := by
        have sum := sum_add_of_others (fun j => x.moved j d) (fun j => x'.moved j d)
          fun j (hj : j ≠ i) => by rw [(others j hj).1]
        linear_combination ih.store d + moves d - sum
      cases effect_of_act created hx acts with
      | kept log mode account =>
        refine ⟨fun j d => ?_, store, ?_, ?_⟩
        · rw [Switchboard.own, log]
          by_cases hj : j = i
          · rw [hj, account]
            exact ih.own i d
          · rw [(others j hj).2 d]
            exact ih.own j d
        · rw [log, mode]
          exact ih.alternate
        · rw [log]
          exact ih.unwinding
      | switched errand route left log account =>
        refine ⟨fun j d => ?_, store, ?_, ?_⟩
        · have counted : x'.own j d = x.own j d +
              if i = j ∧ (d.leads x.mode x'.mode && !errand.isUnwinding) = true then 1 else 0 := by
            rw [Switchboard.own, log, List.filter_append, List.map_append, List.count_append]
            congr 1
            cases hcounts : (d.leads x.mode x'.mode && !errand.isUnwinding) <;>
              simp [Passage.counts, Passage.leads, hcounts, List.count_singleton]
          by_cases hj : j = i
          · subst hj
            rw [counted, account, ih.own, UInt64.ofNat_add, Errand.credited]
            simp only [true_and]
            split <;> rfl
          · rw [counted, if_neg fun h => hj h.1.symm, (others j hj).2 d]
            exact ih.own j d
        · have alternate := ih.alternate
          rw [log, List.countP_append, List.countP_append, alternate]
          simp only [List.countP_singleton, Passage.leads]
          generalize x.mode = before at route left
          generalize x'.mode = after at route
          cases route with
          | leave ending other => cases before <;> simp [Direction.leads] at *
          | endEpoch ending other => cases before <;> simp [Direction.leads] at *
          | _ => simp [Direction.leads]
        · rw [log]
          intro y hy hunwinding
          rcases List.mem_append.1 hy with hy | hy
          · exact ih.unwinding y hy hunwinding
          · obtain rfl := List.mem_singleton.1 hy
            have hsoftware := left hunwinding
            simp only [Passage.leads]
            rw [hsoftware] at route ⊢
            generalize x'.mode = after at route ⊢
            cases route <;> rfl

/-- While nobody is beginning or leaving an epoch, everything is counted that ever will be. -/
theorem Reckoned.recorded (R : x.Reckoned r) (applied : ∀ i, (x.phase i).Applied)
    (settled : ∀ i, (x.phase i).isTurning = false) (d : Direction) :
    x.recorded r d = .ofNat (x.log.countP (·.counts d)) := by
  have own (i : ι) : x.moved i d + x.tallied i d = .ofNat (x.own i d) := by
    rw [← R.own, account, owed_of_not_isTurning (applied i) (settled i), add_zero]
  calc x.recorded r d
      = ∑ i, x.moved i d + ∑ i, x.tallied i d := by
        rw [Switchboard.recorded, R.store]
        ring
    _ = ∑ i, UInt64.ofNat (x.own i d) := by
        rw [← Finset.sum_add_distrib]
        exact Finset.sum_congr rfl fun i _ => own i
    _ = .ofNat ((x.log.filter (·.counts d)).map Passage.agent).length := sum_ofNat_count _
    _ = .ofNat (x.log.countP (·.counts d)) := by rw [List.length_map, List.countP_eq_length_filter]

/-- What a worker does not count is that it was the last to leave an epoch while its call was
unwound. -/
theorem Reckoned.countP_leads (R : x.Reckoned r) :
    x.log.countP (·.leads .toSoftware) = x.log.countP (·.counts .toSoftware) ∧
      x.log.countP (·.leads .toHardware) =
        x.log.countP (·.counts .toHardware) + x.log.countP (·.unwinding) := by
  constructor
  · refine List.countP_congr fun y hy => ?_
    cases hunwinding : y.unwinding with
    | false => simp [Passage.counts, hunwinding]
    | true =>
      have hardware := R.unwinding y hy hunwinding
      simp only [Passage.leads, Direction.leads, Bool.and_eq_true, beq_iff_eq] at hardware
      simp [Passage.counts, Passage.leads, Direction.leads, hardware.1]
  · rw [List.countP_eq_countP_filter_add x.log (·.leads .toHardware) (fun y => !y.unwinding),
      List.countP_filter, List.countP_filter]
    congr 1
    refine List.countP_congr fun y hy => ?_
    have hardware := R.unwinding y hy
    simpa using hardware

/-- In every reachable state the log accounts for the counters of switches: every worker counts its
own, apart from those of calls that are unwound. So while nobody is beginning or leaving an epoch,
the counters differ by one in software mode, and by every return to hardware that came about when a
call that was unwound was the last to leave. -/
theorem reckoned_of_reachable (created : r.Created) (h : Reachable r x) :
    x.Reckoned r ∧ ((∀ i, (x.phase i).isTurning = false) →
      x.recorded r .toSoftware - x.recorded r .toHardware =
        .ofNat ((if x.mode = .sw then 1 else 0) + x.log.countP (·.unwinding))) := by
  have R := reckoned created h
  refine ⟨R, fun settled => ?_⟩
  have applied := System.applied_of_reachable created h.system
  obtain ⟨software, hardware⟩ := R.countP_leads
  have alternate := R.alternate
  rw [R.recorded applied settled, R.recorded applied settled, sub_eq_iff_eq_add,
    ← UInt64.ofNat_add]
  congr 1
  omega

/-- A worker begins an epoch, and another joins it. The first is dropped, the second panics, and
nobody counts that the runtime returned to hardware. -/
theorem reckoned_of_unwound_departure :
    ∃ (r : Runtime) (x : Switchboard Bool), r.Created ∧ Reachable r x ∧ x.mode = .hw ∧
      x.log.countP (·.unwinding) = 1 ∧ x.Reckoned r ∧
      x.recorded r .toSoftware - x.recorded r .toHardware = 1 := by
  let epoch : List (Bool × Request) := [(false, .call), (false, .advance), (false, .advance),
    (false, .account 1), (false, .advance), (false, .advance), (false, .advance),
    (false, .advance), (false, .advance), (false, .advance), (false, .advance),
    (false, .endBody (.ok 1)), (false, .advance), (false, .account 1)]
  let joined : List (Bool × Request) := [(true, .call), (true, .advance), (true, .advance),
    (true, .advance)]
  let departures : List (Bool × Request) := [(false, .retire), (false, .advance),
    (false, .advance), (true, .panic), (true, .advance), (true, .advance), (true, .advance)]
  have facts : ((Runtime.create .none {} [] .empty).toOption.bind fun r =>
      ((start r : Switchboard Bool).run (epoch ++ joined ++ departures)).map fun x =>
        (x.mode, x.log.countP (·.unwinding), (x.phase false).isTurning || (x.phase true).isTurning))
      = some (.hw, 1, false) := by
    decide +kernel
  obtain ⟨r, hcreate, hrun⟩ := Option.bind_eq_some_iff.1 facts
  obtain ⟨x, hrun, hx⟩ := Option.map_eq_some_iff.1 hrun
  simp only [Prod.mk.injEq, Bool.or_eq_false_iff] at hx
  obtain ⟨hmode, hunwinding, hfalse, htrue⟩ := hx
  have created : r.Created := ⟨_, _, _, _, Runtime.create_of_toOption hcreate⟩
  have reachable : Reachable r x :=
    steps_of_run (by simp [epoch, joined, departures, Request.SparesMode]) hrun
  have settled : ∀ i, (x.phase i).isTurning = false := fun i => by cases i <;> assumption
  obtain ⟨R, difference⟩ := reckoned_of_reachable created reachable
  refine ⟨r, x, created, reachable, hmode, hunwinding, R, ?_⟩
  rw [difference settled, hmode, hunwinding]
  rfl

end Switchboard

end HybridTM
