import HybridTM.Proofs.Books
import HybridTM.Proofs.World
import Mathlib.Algebra.BigOperators.Group.Finset.Basic
import Mathlib.Tactic.Abel

/-!
# Chronicles of workers on one runtime

A chronicle keeps beside the workers on a runtime a log of what happens: attempts that begin and
end, compare-and-swaps of the clock, and swaps that take the global lock. For each worker it notes
what the body of the attempt under way has written and how the attempts of the last call ended, and
it lists the calls that returned. No worker reads any of this. What a step adds depends only on the
phases that it leads from and to (`Phase.events`).

Bodies are open: in any invocation and at any of its steps a body may access what it likes, return
any error, or panic.
-/

set_option autoImplicit false

namespace HybridTM

/-! ## Sums over workers -/

/-- When one worker changes, a sum over all of them changes by what is its own. -/
theorem sum_add_of_others {ι M : Type} [Fintype ι] [DecidableEq ι] [AddCommMonoid M]
    (f f' : ι → M) {i : ι} (h : ∀ j, j ≠ i → f' j = f j) : ∑ j, f' j + f i = ∑ j, f j + f' i := by
  have others : ∑ j ∈ Finset.univ.erase i, f' j = ∑ j ∈ Finset.univ.erase i, f j :=
    Finset.sum_congr rfl fun j hj => h j (Finset.ne_of_mem_erase hj)
  rw [← Finset.add_sum_erase _ f' (Finset.mem_univ i),
    ← Finset.add_sum_erase _ f (Finset.mem_univ i), others]
  abel

/-! ## Events -/

/-- How an attempt ended. -/
inductive Outcome where
  /-- It committed. -/
  | committed
  /-- It failed with an error. -/
  | failed (err : TxError)
  /-- Its body panicked. -/
  | panicked
  deriving DecidableEq

/-- An attempt that has ended: an execution of a region, or an attempt in software. -/
structure Trial where
  /-- Where it ran. -/
  path : Path
  /-- The write calls of its body. -/
  writes : List Access
  /-- How it ended. -/
  outcome : Outcome

/-- What happens in a step. -/
inductive Event where
  /-- An attempt begins. -/
  | begun (path : Path)
  /-- An attempt ends. -/
  | ended (trial : Trial)
  /-- A compare-and-swap of the clock is executed. -/
  | clockSwap
  /-- A swap of the mode word takes the global lock. -/
  | lockSwap

namespace Event

/-- The attempt that ends. -/
def trial? : Event → Option Trial
  | .ended trial => some trial
  | _ => none

/-- The path of an attempt that begins. -/
def beginning? : Event → Option Path
  | .begun path => some path
  | _ => none

/-- The path of an attempt that ends. -/
def ending? : Event → Option Path
  | .ended trial => some trial.path
  | _ => none

/-- The path of an attempt that commits. -/
def commit? : Event → Option Path
  | .ended ⟨path, _, .committed⟩ => some path
  | _ => none

/-- The class of the error that an attempt fails with. -/
def failure? : Event → Option AbortClass
  | .ended ⟨_, _, .failed err⟩ => some err.abortClass
  | _ => none

/-- The path of an attempt whose body panics. -/
def panic? : Event → Option Path
  | .ended ⟨path, _, .panicked⟩ => some path
  | _ => none

/-- What is published: the writes of an attempt that commits. -/
def published : Event → List Access
  | .ended ⟨_, writes, .committed⟩ => writes
  | _ => []

end Event

/-- Whether a worker is between calls, or was dropped. -/
def Phase.isResting : Phase → Bool
  | .resting _ => true
  | _ => false

theorem Phase.isResting_iff {p : Phase} : p.isResting = true ↔ ∃ last, p = .resting last := by
  cases p with
  | resting last => exact ⟨fun _ => ⟨last, rfl⟩, fun _ => rfl⟩
  | _ => exact ⟨nofun, nofun⟩

/-- Whether an errand is to take the global lock. -/
def Errand.takesLock : Errand → Bool
  | .lock _ => true
  | _ => false

namespace Phase

/-- The path of the attempt that is under way. -/
def attempt? : Phase → Option Path
  | .checking _ _ => some .hardware
  | .hardware _ (.done _) => none
  | .hardware _ _ => some .hardware
  | .software _ ⟨_, .starting⟩ => none
  | .software _ ⟨tx, _⟩ => some (.ofRole tx.role)
  | _ => none

/-- How an attempt ends with a step. -/
def outcome (p : Phase) (q : Request) (p' : Phase) : Outcome :=
  match q, p, p' with
  | .panic, _, _ => .panicked
  | _, .software _ ⟨_, .aborting err⟩, _ => .failed err
  | _, _, .hardware _ (.done (.error abort)) => .failed (.hardware abort)
  | _, _, _ => .committed

/-- The swaps that a step executes: those of the clock when a serial attempt begins and when an
attempt goes to its commit, and the one that takes the global lock. -/
def swaps (p : Phase) (q : Request) (s : Shared) (p' : Phase) : List Event :=
  match q, p, p' with
  | .advance, .software _ ⟨_, .starting⟩, .software _ ⟨tx, .running⟩ =>
      if tx.role = .serial then [.clockSwap] else []
  | .advance, .software _ ⟨tx, .committing _⟩, _ =>
      .replicate ((tx.commitActs s).countP (·.isLock)) .clockSwap
  | .advance, .switching errand (.swap seen _), _ =>
      if errand.takesLock ∧ s.memory.read Runtime.modeAddr = seen.encode then [.lockSwap] else []
  | _, _, _ => []

/-- The attempts that begin and end with a step after the given writes. -/
def turns (p : Phase) (q : Request) (p' : Phase) (writes : List Access) : List Event :=
  match p.attempt?, p'.attempt? with
  | none, some path => [.begun path]
  | some path, none => [.ended ⟨path, writes, p.outcome q p'⟩]
  | _, _ => []

/-- The writes of the attempt under way after a request that led to a phase. -/
def written (p' : Phase) (q : Request) (writes : List Access) : List Access :=
  match q, p'.attempt? with
  | _, none => []
  | .write a v mask, some _ => writes ++ [.write a v mask]
  | _, some _ => writes

/-- What happens in a step. -/
def events (p : Phase) (q : Request) (s : Shared) (p' : Phase) (writes : List Access) :
    List Event :=
  p.swaps q s p' ++ p.turns q p' writes

variable {p p' : Phase} {q : Request} {s : Shared} {writes : List Access}

theorem eq_of_mem_swaps {e : Event} (h : e ∈ p.swaps q s p') : e = .clockSwap ∨ e = .lockSwap := by
  unfold swaps at h
  split at h
  · split at h
    · exact Or.inl (List.mem_singleton.1 h)
    · cases h
  · exact Or.inl (List.eq_of_mem_replicate h)
  · split at h
    · exact Or.inr (List.mem_singleton.1 h)
    · cases h
  · cases h

/-- What is no swap comes from attempts that begin and end. -/
theorem filterMap_events {α : Type} {f : Event → Option α} (hclock : f .clockSwap = none)
    (hlock : f .lockSwap = none) :
    (p.events q s p' writes).filterMap f = (p.turns q p' writes).filterMap f := by
  have hswaps : (p.swaps q s p').filterMap f = [] := by
    rw [List.filterMap_eq_nil_iff]
    intro e he
    rcases eq_of_mem_swaps he with rfl | rfl
    · exact hclock
    · exact hlock
  rw [events, List.filterMap_append, hswaps, List.nil_append]

/-- Outside attempts none begins or ends. -/
theorem turns_of_none (hp : p.attempt? = none) (hp' : p'.attempt? = none) :
    p.turns q p' writes = [] := by
  rw [turns, hp, hp']

/-- Nor does one in a step that leads nowhere. -/
theorem turns_self : p.turns q p writes = [] := by
  rw [turns]
  cases p.attempt? <;> rfl

end Phase

theorem Worker.attempt?_destination (clock : Clock) (changed : Bool) (errand : Errand) :
    (destination clock changed errand).attempt? = none := by
  cases errand <;> cases changed <;> rfl

theorem Worker.attempt?_epilogue (value : Word) (place : Place) :
    (epilogue value place).attempt? = none := by
  cases place <;> rfl

theorem Worker.Turn.of_call {b b' : Backend} {s s' : Shared} {d d' : Bool} {p p' : Phase}
    {reply : Reply} (T : Turn b s d p .call reply d' p' s' b') :
    (∃ last, p = .resting last) ∧ p' = .dispatch 0 := by
  cases T with
  | call alive => exact ⟨⟨_, rfl⟩, rfl⟩

/-! ## Chronicles -/

/-- What is noted of one worker. -/
structure Notes where
  /-- What the body of the attempt that is under way has written. -/
  writes : List Access
  /-- The attempts of the last call that have ended. -/
  trials : List Trial

namespace Notes

/-- Nothing. -/
def empty : Notes := ⟨[], []⟩

/-- The notes after a request that led to a phase, with what happened in the step. -/
def after (n : Notes) (q : Request) (p' : Phase) (events : List Event) : Notes where
  writes := p'.written q n.writes
  trials := (match q with
    | .call => []
    | _ => n.trials) ++ events.filterMap Event.trial?

/-- Only a call makes the attempts before it forgotten. -/
theorem trials_after {n : Notes} {p p' : Phase} {q : Request} {s : Shared} (hq : q ≠ .call) :
    (n.after q p' (p.events q s p' n.writes)).trials =
      n.trials ++ (p.turns q p' n.writes).filterMap Event.trial? := by
  rw [← Phase.filterMap_events (s := s) rfl rfl]
  cases q with
  | call => exact absurd rfl hq
  | _ => rfl

end Notes

/-- A call that returned. -/
structure Returned where
  /-- Its attempts, oldest first. -/
  trials : List Trial
  /-- Its value. -/
  value : Word

/-- Workers on one runtime and what happened to them. -/
structure Chronicle (ι : Type) where
  /-- The workers and their runtime. -/
  system : System ι
  /-- What is noted of each worker. -/
  notes : ι → Notes
  /-- What happened, oldest first. -/
  log : List Event
  /-- The calls that returned, oldest first. -/
  returned : List Returned

namespace Chronicle

variable {ι : Type} [DecidableEq ι]

/-- New workers on a runtime. -/
def start (r : Runtime) : Chronicle ι := ⟨.start r, fun _ => .empty, [], []⟩

/-- The phase of a worker. -/
def phase (c : Chronicle ι) (i : ι) : Phase := (c.system.worker i).phase

/-- Memory and clock. -/
def shared (c : Chronicle ι) : Shared := c.system.runtime.engine.shared

/-- What happens in a step of one worker to a phase. -/
def events (c : Chronicle ι) (i : ι) (q : Request) (p' : Phase) : List Event :=
  (c.phase i).events q c.shared p' (c.notes i).writes

/-- The notes on a worker after a step of its own to a phase. -/
def noted (c : Chronicle ι) (i : ι) (q : Request) (p' : Phase) : Notes :=
  (c.notes i).after q p' (c.events i q p')

/-- The chronicle after a step of one worker to another system. -/
def after (c : Chronicle ι) (i : ι) (q : Request) (s : System ι) : Chronicle ι where
  system := s
  notes := Function.update c.notes i (c.noted i q (s.worker i).phase)
  log := c.log ++ c.events i q (s.worker i).phase
  returned := c.returned ++ (((s.worker i).phase.returns? q).map fun value =>
    ⟨(c.noted i q (s.worker i).phase).trials, value⟩).toList

/-- One step of one worker. -/
def act (c : Chronicle ι) (i : ι) (q : Request) : Option (Reply × Chronicle ι) :=
  (c.system.act i q).map fun (reply, s) => (reply, c.after i q s)

/-- Other faults are injected. -/
def withFaults (c : Chronicle ι) (f : Faults → Faults) : Chronicle ι :=
  { c with system := c.system.withFaults f }

/-- A worker makes a step, or other faults are injected. -/
inductive Step (c : Chronicle ι) : Chronicle ι → Prop
  | act (i : ι) (q : Request) (spares : q.SparesMode) {reply : Reply} {c' : Chronicle ι}
      (acts : c.act i q = some (reply, c')) : Step c c'
  | faults (f : Faults → Faults) : Step c (c.withFaults f)

/-- The chronicles that steps lead to from new workers on a runtime. -/
def Reachable (r : Runtime) (c : Chronicle ι) : Prop :=
  Relation.ReflTransGen Step (start r) c

/-- All workers were dropped. -/
def Dropped (c : Chronicle ι) : Prop := ∀ i, (c.phase i).isRetired = true

/-- All workers are between calls, or were dropped. -/
def Quiescent (c : Chronicle ι) : Prop := ∀ i, (c.phase i).isResting = true

/-- No body panicked. -/
def Calm (c : Chronicle ι) : Prop := ∀ e ∈ c.log, e.panic? = none

/-! ## Steps -/

variable {c c' : Chronicle ι} {i : ι} {q : Request} {reply : Reply} {r : Runtime}

theorem act_eq_some (h : c.act i q = some (reply, c')) :
    ∃ s, c.system.act i q = some (reply, s) ∧ c' = c.after i q s := by
  obtain ⟨⟨reply', s⟩, hact, heq⟩ := Option.map_eq_some_iff.1 h
  obtain ⟨rfl, rfl⟩ := Prod.mk.inj heq
  exact ⟨s, hact, rfl⟩

/-- A step is a turn of one worker, whose notes it brings up to date, and adds to the log what
happens in it. -/
theorem turn_of_act (h : c.act i q = some (reply, c')) :
    Worker.Turn c.system.runtime.backend c.shared (c.system.worker i).deferred (c.phase i) q reply
        (c'.system.worker i).deferred (c'.phase i) c'.shared c'.system.runtime.backend ∧
      c'.notes i = c.noted i q (c'.phase i) ∧ c'.log = c.log ++ c.events i q (c'.phase i) ∧
      ∀ j, j ≠ i → c'.system.worker j = c.system.worker j ∧ c'.notes j = c.notes j := by
  obtain ⟨s, hact, rfl⟩ := act_eq_some h
  obtain ⟨T, hothers⟩ := System.turn_of_act hact
  exact ⟨T, Function.update_self .., rfl,
    fun j hj => ⟨hothers j hj, Function.update_of_ne hj _ _⟩⟩

/-- A call begins at rest, with nothing noted of it. -/
theorem call_of_act (h : c.act i .call = some (reply, c')) : (c.phase i).isResting = true ∧
    c'.phase i = .dispatch 0 ∧ c'.notes i = .empty := by
  obtain ⟨T, hnotes, -, -⟩ := turn_of_act h
  obtain ⟨⟨last, hlast⟩, hphase⟩ := T.of_call
  rw [hnotes, noted, events, hlast, hphase]
  exact ⟨rfl, rfl, rfl⟩

/-- The worker makes the step. -/
theorem worker_of_act (h : c.act i q = some (reply, c')) :
    (c.system.worker i).act c.system.runtime q =
      some (reply, c'.system.worker i, c'.system.runtime) := by
  obtain ⟨s, hact, rfl⟩ := act_eq_some h
  exact System.worker_of_act hact

/-- It posts to the books. -/
theorem posts_of_act (h : c.act i q = some (reply, c')) :
    (c.system.worker i).Posts c.system.runtime ((c.phase i).posted q c.shared)
      (c'.system.worker i) c'.system.runtime :=
  Worker.posts_of_act (worker_of_act h)

/-- It may return a call. -/
theorem returned_of_act (h : c.act i q = some (reply, c')) :
    c'.returned = c.returned ++ (((c'.phase i).returns? q).map fun value =>
      ⟨(c.noted i q (c'.phase i)).trials, value⟩).toList := by
  obtain ⟨s, -, rfl⟩ := act_eq_some h
  rfl

theorem Step.system (h : Step c c') : System.Step c.system c'.system := by
  cases h with
  | act i q spares acts =>
    obtain ⟨s, hact, rfl⟩ := act_eq_some acts
    exact .act i q spares hact
  | faults f => exact .faults f

theorem Reachable.system (h : Reachable r c) : System.Reachable r c.system := by
  induction h with
  | refl => exact .refl
  | tail _ hstep ih => exact .tail ih hstep.system

theorem Reachable.step (h : Reachable r c) (hstep : Step c c') : Reachable r c' := .tail h hstep

/-- What holds of a new worker, and what every step keeps of the worker that makes it, holds of all
workers. -/
theorem Reachable.forall_worker {P : Worker → Notes → Prop} (h : Reachable r c)
    (new : P (.new r) .empty)
    (step : ∀ {c c' : Chronicle ι} {i : ι} {q : Request} {reply : Reply}, Reachable r c →
      c.act i q = some (reply, c') → P (c.system.worker i) (c.notes i) →
        P (c'.system.worker i) (c'.notes i)) (i : ι) : P (c.system.worker i) (c.notes i) := by
  induction h generalizing i with
  | refl => exact new
  | @tail c c' hc hstep ih =>
    cases hstep with
    | act j q spares acts =>
      by_cases hi : i = j
      · subst hi
        exact step hc acts (ih i)
      · obtain ⟨-, -, -, hothers⟩ := turn_of_act acts
        rw [(hothers i hi).1, (hothers i hi).2]
        exact ih i
    | faults f => exact ih i

/-! ## Runs -/

/-- The chronicle after steps in the given order, if all of them are possible. -/
def run (c : Chronicle ι) : List (ι × Request) → Option (Chronicle ι)
  | [] => some c
  | (i, q) :: steps => (c.act i q).bind fun (_, c') => c'.run steps

theorem steps_of_run {steps : List (ι × Request)} (spares : ∀ x ∈ steps, x.2.SparesMode)
    (h : c.run steps = some c') : Relation.ReflTransGen Step c c' := by
  refine reflTransGen_of_allowed (fun _ => rfl) (fun c x steps c' hq h => ?_) spares h
  obtain ⟨⟨reply, c₁⟩, hact, hrest⟩ := Option.bind_eq_some_iff.1 h
  exact ⟨c₁, .act x.1 x.2 hq hact, hrest⟩

/-- What is computed of the end of a run holds of a reachable chronicle. -/
theorem reachable_of_run {α : Type} {backend : Backend} {config : HybridConfig} {data : List Word}
    {metrics : Metrics} {steps : List (ι × Request)} (spares : ∀ x ∈ steps, x.2.SparesMode)
    {f : Chronicle ι → α} {v : α}
    (h : ((Runtime.create backend config data metrics).toOption.bind fun r =>
      ((start r).run steps).map f) = some v) :
    ∃ r c, Runtime.create backend config data metrics = .ok r ∧ Reachable r c ∧ f c = v := by
  obtain ⟨r, hcreate, hrun⟩ := Option.bind_eq_some_iff.1 h
  obtain ⟨c, hrun, hc⟩ := Option.map_eq_some_iff.1 hrun
  exact ⟨r, c, Runtime.create_of_toOption hcreate, steps_of_run spares hrun, hc⟩

end Chronicle

end HybridTM
