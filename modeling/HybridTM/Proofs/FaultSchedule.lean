import HybridTM.Proofs.AllOrNothing
import HybridTM.Proofs.FaultOrders

/-!
# The schedule of injected faults

A history is a diary of the executions on one emulator with a log of the orders to its injector,
given at any time and in any order, also while bodies or hooks are running (`FaultHistory`). The log
decides what happens (`FaultHistory.FollowsOrders`): an execution is forced into an abort just if
the log demanded one when it began, and into no other; its body does not run then. The hook that is
set when a body has returned a value in a region that is not doomed is called once, and no hook is
called otherwise. Both counters are those of the log.

This holds in every history (`FaultHistory.followsOrders_of_reachable`).
-/

set_option autoImplicit false

namespace HybridTM

/-! ## Histories -/

/-- The abort with which an execution has ended. -/
def Execution.refusal? : Execution → Option HardwareAbort
  | .done (.error abort) => some abort
  | _ => none

/-- The hook that is running. -/
def Execution.hook? : Execution → Option Hook
  | .hook name _ _ => some name
  | _ => none

/-- Nothing has happened in an execution. -/
def Execution.isStarting : Execution → Bool
  | .starting => true
  | _ => false

namespace FaultEvent

variable {ι : Type}

/-- What is logged of an execution that goes from one stage to the next. -/
def marks (i : ι) : Execution → Execution → List (FaultEvent ι)
  | .starting, x' => [.begun i x'.refusal?]
  | .returned r _, x' =>
      if r.doomed = none then .ready i :: x'.hook?.toList.map (.hooked i) else []
  | _, _ => []

variable [DecidableEq ι]

/-- An execution begins, or is forced into an abort. -/
def begins (i : ι) : FaultEvent ι → Bool
  | .begun j _ => j = i
  | _ => false

/-- The hook that is called for an execution. -/
def calledFor? (i : ι) : FaultEvent ι → Option Hook
  | .hooked j hook => if j = i then some hook else none
  | _ => none

end FaultEvent

/-- Executions on one emulator, with a diary and a log of the faults. -/
structure FaultHistory (ι : Type) where
  /-- The executions with their diary. -/
  diary : RegionDiary ι
  /-- The orders to the injector, and what comes of them. -/
  log : List (FaultEvent ι)

/-- A call on an emulator with an injector. -/
inductive FaultCall (ι : Type) where
  /-- The injector is given an order. -/
  | tell (order : FaultOrder)
  /-- Something else happens on the emulator. -/
  | call (c : RegionCall ι)

/-- Faults are set, other than by an order. -/
def RegionCall.setsFaults {ι : Type} : RegionCall ι → Bool
  | .setFaults _ => true
  | _ => false

namespace FaultHistory

variable {ι : Type}

/-- The executions. -/
def execution (d : FaultHistory ι) : ι → Execution := d.diary.system.execution

/-- The history before any call. -/
def init (capacity : Nat) (m : Memory) : FaultHistory ι := ⟨.init capacity m, []⟩

/-- What is logged of a call that leads to another diary. -/
def marks (d : FaultHistory ι) (c : RegionCall ι) (diary : RegionDiary ι) : List (FaultEvent ι) :=
  c.owner?.toList.flatMap fun i => FaultEvent.marks i (d.execution i) (diary.system.execution i)

variable [DecidableEq ι]

/-- The history after a call. Faults are changed by orders only. -/
def call (d : FaultHistory ι) : FaultCall ι → Option (FaultHistory ι)
  | .tell order =>
      (d.diary.call (.setFaults order.apply)).map fun diary => ⟨diary, d.log ++ [.told order]⟩
  | .call c =>
      if c.setsFaults then none
      else (d.diary.call c).map fun diary => ⟨diary, d.log ++ d.marks c diary⟩

/-- One call is made. -/
def Step (d d' : FaultHistory ι) : Prop := ∃ c, d.call c = some d'

/-- What calls lead to on an emulator with a capacity, from a memory. -/
def Reachable (capacity : Nat) (m : Memory) (d : FaultHistory ι) : Prop :=
  Relation.ReflTransGen Step (init capacity m) d

/-- The history after calls in the given order, if all of them are possible. -/
def run (d : FaultHistory ι) : List (FaultCall ι) → Option (FaultHistory ι)
  | [] => some d
  | c :: calls => (d.call c).bind fun d' => d'.run calls

/-- The hooks that were called for an execution. -/
def hooksFor (log : List (FaultEvent ι)) (i : ι) : List Hook := log.filterMap (·.calledFor? i)

end FaultHistory

/-- The body has returned a value, nothing has doomed the region, and the execution has gone on from
there. -/
structure RegionDiary.IsReady {ι : Type} (d : RegionDiary ι) (i : ι) : Prop where
  /-- The body has returned a value. -/
  returned : ∃ value, .returned (.ok value) ∈ d.notes i
  /-- The region is not doomed. -/
  sound : ∀ x ∈ d.notes i, x.doom? = none
  /-- The execution has gone on. -/
  gone : ∀ r value, d.system.execution i ≠ .returned r value

namespace FaultHistory

variable {ι : Type} [DecidableEq ι]

/-! ## What is promised -/

/-- Faults are injected as the log demands. -/
structure FollowsOrders (d : FaultHistory ι) : Prop where
  /-- The injector is armed if an abort is demanded or a hook is set. -/
  armed : ∀ e, d.diary.system.backend = .emulated e →
    (FaultLog.demanded d.log).isSome = true ∨ (FaultLog.hook d.log).isSome = true →
      e.faults.armed = true
  /-- Whether it looks for them only if it is armed or always makes no difference. -/
  looks : ∀ e, d.diary.system.backend = .emulated e →
    e.faults.takeForced.1 = { e.faults with armed := true }.takeForced.1 ∧
      e.faults.dueHook = e.faults.hook
  /-- An execution is forced into the abort that is demanded when it begins, if any. -/
  forced : ∀ before i forced after, d.log = before ++ .begun i forced :: after →
    forced = FaultLog.demanded before
  /-- An execution begins once. -/
  once : ∀ i, d.log.countP (·.begins i) = if (d.execution i).isStarting = true then 0 else 1
  /-- If it is forced into an abort, its body does not run, and it ends with that abort. -/
  refused_iff : ∀ i abort, .begun i (some abort) ∈ d.log ↔
    d.diary.notes i = [.refused abort] ∧ d.execution i = .done (.error abort)
  /-- Otherwise its body runs. -/
  entered_iff : ∀ i, .begun i none ∈ d.log ↔ .entered ∈ d.diary.notes i
  /-- The aborts are counted. -/
  injected : ∀ e, d.diary.system.backend = .emulated e →
    e.faults.injected = .ofNat (FaultLog.injected d.log)
  /-- So are all executions. -/
  started : ∀ e, d.diary.system.backend = .emulated e →
    e.started = .ofNat (FaultLog.started d.log)
  /-- A hook is looked for once a body has returned a value and the region is not doomed. -/
  ready_iff : ∀ i, .ready i ∈ d.log ↔ d.diary.IsReady i
  /-- The hook that is set then is called, once, and no other. -/
  hooked : ∀ before i after, d.log = before ++ .ready i :: after →
    hooksFor d.log i = (FaultLog.hook before).toList
  /-- Otherwise none is. -/
  unhooked : ∀ i, .ready i ∉ d.log → hooksFor d.log i = []

end FaultHistory

/-! ## Logs -/

namespace FaultHistory

variable {ι : Type} [DecidableEq ι] {log : List (FaultEvent ι)} {i : ι}

theorem hooksFor_append (log events : List (FaultEvent ι)) (i : ι) :
    hooksFor (log ++ events) i = hooksFor log i ++ hooksFor events i := List.filterMap_append

/-- What a log says about aborts and hooks is as demanded. -/
structure Orderly (log : List (FaultEvent ι)) : Prop where
  /-- Every abort is. -/
  forced : ∀ before i forced after, log = before ++ .begun i forced :: after →
    forced = FaultLog.demanded before
  /-- Every hook is. -/
  hooked : ∀ before i after, log = before ++ .ready i :: after →
    hooksFor log i = (FaultLog.hook before).toList
  /-- Without an occasion there is no hook. -/
  unhooked : ∀ i, .ready i ∉ log → hooksFor log i = []

namespace Orderly

theorem nil : Orderly ([] : List (FaultEvent ι)) :=
  ⟨fun before i forced after h => by simp at h, fun before i after h => by simp at h,
    fun _ _ => rfl⟩

/-- An event that neither looks for a hook nor calls one keeps it, if it is an abort as demanded. -/
theorem concat (O : Orderly log) {y : FaultEvent ι}
    (forced : ∀ i forced, y = .begun i forced → forced = FaultLog.demanded log)
    (ready : ∀ i, y ≠ .ready i) (silent : ∀ i, y.calledFor? i = none) : Orderly (log ++ [y]) := by
  have hhooks (i : ι) : hooksFor (log ++ [y]) i = hooksFor log i := by
    rw [hooksFor_append, hooksFor, hooksFor, List.filterMap_cons, silent]
    exact List.append_nil _
  refine ⟨fun before i f after h => ?_, fun before i after h => ?_, fun i h => ?_⟩
  · rcases concat_eq_append_cons h with ⟨rfl, hy⟩ | ⟨after', rfl, hlog⟩
    · rw [← List.append_inj_left' h rfl]
      exact forced i f hy
    · exact O.forced before i f after' hlog
  · rcases concat_eq_append_cons h with ⟨rfl, hy⟩ | ⟨after', rfl, hlog⟩
    · exact absurd hy (ready i)
    · rw [hhooks]
      exact O.hooked before i after' hlog
  · rw [hhooks]
    exact O.unhooked i fun hmem => h (List.mem_append_left _ hmem)

/-- When a hook is looked for the first time for an execution, the one that is set is called. -/
theorem ready (O : Orderly log) (fresh : .ready i ∉ log) :
    Orderly (log ++ .ready i :: (FaultLog.hook log).toList.map (.hooked i)) := by
  have hnew (j : ι) : hooksFor (.ready i :: (FaultLog.hook log).toList.map (.hooked i)) j =
      if i = j then (FaultLog.hook log).toList else [] := by
    cases FaultLog.hook log with
    | none => simp [hooksFor, FaultEvent.calledFor?]
    | some hook => by_cases hij : i = j <;> simp [hooksFor, FaultEvent.calledFor?, hij]
  -- No event that is added begins an execution, and only the first of them looks for a hook.
  generalize htail : FaultLog.hook log = tail at hnew
  refine ⟨fun before j f after h => ?_, fun before j after h => ?_, fun j h => ?_⟩
  · rcases append_eq_append_cons h with ⟨after', rfl, hlog⟩ | ⟨between, rfl, ht⟩
    · exact O.forced before j f after' hlog
    · have hmem : .begun j f ∈ .ready i :: tail.toList.map (FaultEvent.hooked i) :=
        ht ▸ List.mem_append_right _ List.mem_cons_self
      simp at hmem
  · rw [hooksFor_append, hnew]
    rcases append_eq_append_cons h with ⟨after', rfl, hlog⟩ | ⟨between, rfl, ht⟩
    · have hne : i ≠ j := by
        rintro rfl
        exact fresh (hlog ▸ List.mem_append_right _ List.mem_cons_self)
      rw [O.hooked before j after' hlog, if_neg hne, List.append_nil]
    · cases between with
      | nil =>
        obtain ⟨hij, -⟩ := List.cons.inj ht
        obtain rfl : i = j := by simpa using hij
        rw [O.unhooked i fresh, if_pos rfl, List.append_nil, htail, List.nil_append]
      | cons y between =>
        have hmem : .ready j ∈ tail.toList.map (FaultEvent.hooked i) :=
          (List.cons.inj ht).2 ▸ List.mem_append_right _ List.mem_cons_self
        simp at hmem
  · have hne : i ≠ j := by
      rintro rfl
      exact h (List.mem_append_right _ List.mem_cons_self)
    rw [hooksFor_append, hnew, if_neg hne, List.append_nil]
    exact O.unhooked j fun hmem => h (List.mem_append_left _ hmem)

end Orderly

end FaultHistory

/-! ## Turns -/

/-- The execution is past the look for a hook, on its way to commit. -/
def Execution.isPast : Execution → Bool
  | .hook _ _ _ | .committing _ _ => true
  | _ => false

/-- A region is to commit. -/
def RegionEvent.isJudged : RegionEvent → Bool
  | .judged _ => true
  | _ => false

/-- What a step of an execution does to the log and the injector. -/
inductive Emulator.Logs {ι : Type} (e : Emulator) (i : ι) : List (FaultEvent ι) → Emulator → Prop
  /-- It begins, or is forced into an abort. -/
  | begins {e' : Emulator} (faults : e'.faults = e.faults.takeForced.2)
      (started : e'.started = e.started + 1) :
      Logs e i [.begun i e.faults.takeForced.1] e'
  /-- It looks for a hook. -/
  | looks : Logs e i (.ready i :: e.faults.dueHook.toList.map (.hooked i)) e
  /-- It does neither. -/
  | quiet {e' : Emulator} (faults : e'.faults = e.faults) (started : e'.started = e.started) :
      Logs e i [] e'

theorem Emulator.enter_faults {e e' : Emulator} {result : Except HardwareAbort Region}
    (h : e.enter = (result, e')) : e'.faults = e.faults.takeForced.2 ∧ e'.started = e.started + 1 ∧
      ∀ abort, result = .error abort ↔ e.faults.takeForced.1 = some abort := by
  rcases hforced : e.faults.takeForced with ⟨_ | abort, faults⟩ <;>
    simp only [enter, hforced] at h <;> obtain ⟨rfl, rfl⟩ := Prod.mk.inj h
  · exact ⟨rfl, rfl, fun abort => by simp only [reduceCtorEq]⟩
  · exact ⟨rfl, rfl, fun a => ⟨fun h => congrArg some (Except.error.inj h),
      fun h => congrArg Except.error (Option.some.inj h)⟩⟩

namespace RegionTurn

variable {ι : Type} {e e' : Emulator} {m m' : Memory} {x x' : Execution}
  {event : Option RegionEvent} {notes : List RegionEvent} {log : List (FaultEvent ι)} {i : ι}

theorem logs_marks (T : RegionTurn e m x event x' e' m')
    (looked : ∀ r value, x = .returned r value → r.doomed = none → x'.hook? = e.faults.dueHook) :
    e.Logs i (FaultEvent.marks i x x') e' := by
  cases T with
  | refused enters =>
    obtain ⟨faults, started, hforced⟩ := Emulator.enter_faults enters
    have L := Emulator.Logs.begins (i := i) faults started
    rwa [(hforced _).1 rfl] at L
  | entered enters =>
    obtain ⟨faults, started, hforced⟩ := Emulator.enter_faults enters
    have hnone : e.faults.takeForced.1 = none :=
      Option.eq_none_iff_forall_ne_some.2 fun abort h => nomatch (hforced abort).2 h
    have L := Emulator.Logs.begins (i := i) faults started
    rwa [hnone] at L
  | doomed value doomed =>
    rw [FaultEvent.marks, if_neg (by rw [doomed]; exact nofun)]
    exact .quiet rfl rfl
  | hook value name sound | ready value sound =>
    rw [FaultEvent.marks, if_pos sound, looked _ _ rfl sound]
    exact .looks
  | commit value current commits =>
    obtain ⟨-, rfl⟩ := Emulator.eq_of_commit commits
    exact .quiet rfl rfl
  | read | write | aborted | returned | failed | resumed | conflict => exact .quiet rfl rfl

/-- An execution begins once. -/
theorem begins_marks [DecidableEq ι] (T : RegionTurn e m x event x' e' m') :
    x'.isStarting = false ∧ (FaultEvent.marks i x x').countP (·.begins i) =
      if x.isStarting = true then 1 else 0 := by
  cases T with
  | refused | entered =>
    exact ⟨rfl, by simp [FaultEvent.marks, FaultEvent.begins, Execution.isStarting]⟩
  | doomed value doomed =>
    exact ⟨rfl, by simp [FaultEvent.marks, doomed, Execution.isStarting]⟩
  | hook value name sound | ready value sound =>
    exact ⟨rfl, by simp [FaultEvent.marks, FaultEvent.begins, sound, Execution.isStarting,
      Execution.hook?]⟩
  | read | write | aborted | returned | failed | resumed | commit | conflict => exact ⟨rfl, rfl⟩

theorem begun_mem_marks (T : RegionTurn e m x event x' e' m') (forced : Option HardwareAbort) :
    .begun i forced ∈ FaultEvent.marks i x x' ↔
      forced.elim .entered .refused ∈ event.toList := by
  cases T with
  | refused | entered =>
    cases forced <;> simp [FaultEvent.marks, Execution.refusal?, eq_comm]
  | doomed value doomed =>
    cases forced <;> simp [FaultEvent.marks, doomed]
  | hook value name sound | ready value sound =>
    cases forced <;> simp [FaultEvent.marks, sound]
  | read | write | aborted | returned | failed | resumed | commit | conflict =>
    cases forced <;> simp [FaultEvent.marks]

/-- It looks for a hook on its way to commit. -/
theorem ready_mem_marks (T : RegionTurn e m x event x' e' m') :
    (x.isPast = true ∨ .ready i ∈ FaultEvent.marks i x x') ↔
      x'.isPast = true ∨ event.any (·.isJudged) = true := by
  cases T with
  | doomed value doomed =>
    simp [FaultEvent.marks, doomed, Execution.isPast]
  | hook value name sound | ready value sound =>
    simp [FaultEvent.marks, sound, Execution.isPast]
  | refused | entered | read | write | aborted | returned | failed | resumed | commit | conflict =>
    simp [FaultEvent.marks, Execution.isPast, RegionEvent.isJudged]

end RegionTurn

/-! ## Executions -/

/-- The log has of an execution what its diary has. -/
structure Accounted {ι : Type} [DecidableEq ι] (log : List (FaultEvent ι)) (i : ι)
    (notes : List RegionEvent) (x : Execution) : Prop where
  /-- It begins once. -/
  once : log.countP (·.begins i) = if x.isStarting = true then 0 else 1
  /-- It is forced into an abort, or its body runs. -/
  begun_iff : ∀ forced, .begun i forced ∈ log ↔ forced.elim .entered .refused ∈ notes
  /-- A hook is looked for on its way to commit. -/
  ready_iff : .ready i ∈ log ↔ x.isPast = true ∨ notes.any (·.isJudged) = true

namespace Accounted

variable {ι : Type} [DecidableEq ι] {log events : List (FaultEvent ι)} {i : ι}
  {notes : List RegionEvent} {x : Execution}

theorem starting (i : ι) : Accounted [] i [] .starting :=
  ⟨rfl, fun _ => ⟨nofun, nofun⟩, ⟨nofun, nofun⟩⟩

/-- Events of others do not count. -/
theorem append (A : Accounted log i notes x) (others : ∀ y ∈ events, y.begins i = false)
    (ready : .ready i ∉ events) : Accounted (log ++ events) i notes x where
  once := by
    have hzero : events.countP (·.begins i) = 0 :=
      List.countP_eq_zero.2 fun y hy => ne_true_of_eq_false (others y hy)
    rw [List.countP_append, hzero]
    exact A.once
  begun_iff forced := by
    have hnone : .begun i forced ∉ events := by
      intro h
      have := others _ h
      simp [FaultEvent.begins] at this
    rw [List.mem_append, or_iff_left hnone]
    exact A.begun_iff forced
  ready_iff := by
    rw [List.mem_append, or_iff_left ready]
    exact A.ready_iff

/-- Every turn of its own is accounted for. -/
theorem turn (A : Accounted log i notes x) {e e' : Emulator} {m m' : Memory}
    {event : Option RegionEvent} {x' : Execution} (T : RegionTurn e m x event x' e' m') :
    Accounted (log ++ FaultEvent.marks i x x') i (notes ++ event.toList) x' where
  once := by
    obtain ⟨hstarting, hcount⟩ := T.begins_marks (i := i)
    rw [List.countP_append, hcount, A.once, hstarting]
    cases x.isStarting <;> rfl
  begun_iff forced := by
    rw [List.mem_append, List.mem_append, A.begun_iff, T.begun_mem_marks]
  ready_iff := by
    have hany : event.toList.any (·.isJudged) = event.any (·.isJudged) := by
      cases event with
      | none => rfl
      | some y => exact Bool.or_false _
    rw [List.mem_append, A.ready_iff, or_right_comm, T.ready_mem_marks, or_right_comm, or_assoc,
      List.any_append, Bool.or_eq_true, hany]

end Accounted

namespace BodyRun

variable {notes : List RegionEvent} {doom : Option HardwareAbort}

/-- A body that runs has not returned, and its region is not judged. -/
theorem open_of_mem (B : BodyRun notes doom) {y : RegionEvent} (h : y ∈ notes) :
    y.isJudged = false ∧ ∀ result, y ≠ .returned result := by
  rcases B.kind h with rfl | h | ⟨code, rfl⟩
  · exact ⟨rfl, nofun⟩
  · cases y with
    | read | write => exact ⟨rfl, nofun⟩
    | _ => cases h
  · exact ⟨rfl, nofun⟩

theorem unjudged (B : BodyRun notes doom) : notes.any (·.isJudged) = false :=
  List.any_eq_false.2 fun _ h => ne_true_of_eq_false (B.open_of_mem h).1

end BodyRun

namespace Course

variable {notes : List RegionEvent} {x : Execution}

/-- An execution on its way to commit is one whose body has returned a value, and whose region was
not doomed when it went on. -/
theorem ready_iff (C : Course notes x) : (x.isPast = true ∨ notes.any (·.isJudged) = true) ↔
    (∃ value, .returned (.ok value) ∈ notes) ∧ (∀ y ∈ notes, y.doom? = none) ∧
      ∀ r value, x ≠ .returned r value := by
  constructor
  · intro h
    have sound {body tail : List RegionEvent} (run : BodyRun body none)
        (htail : ∀ y ∈ tail, y.doom? = none) : ∀ y ∈ body ++ tail, y.doom? = none := fun y hy =>
      (List.mem_append.1 hy).elim (run.sound rfl) (htail y)
    cases C with
    | starting | refused => simp [Execution.isPast, RegionEvent.isJudged] at h
    | running run => simp [Execution.isPast, run.unjudged] at h
    | failed run | returned run | doomed run =>
      rw [List.any_append, run.unjudged] at h
      simp [Execution.isPast, RegionEvent.isJudged] at h
    | hook run name r value | committing run r value =>
      exact ⟨⟨value, by simp⟩, sound run (by simp [RegionEvent.doom?, RegionEvent.failure?]), nofun⟩
    | conflict run value | committed run value =>
      exact ⟨⟨value, by simp⟩, sound run (by simp [RegionEvent.doom?, RegionEvent.failure?]), nofun⟩
  · rintro ⟨⟨value, hreturned⟩, hsound, hgone⟩
    cases C with
    | starting | refused => simp at hreturned
    | running run => exact absurd rfl ((run.open_of_mem hreturned).2 _)
    | failed run err =>
      rcases List.mem_append.1 hreturned with h | h
      · exact absurd rfl ((run.open_of_mem h).2 _)
      · simp at h
    | returned run value => exact absurd rfl (hgone _ _)
    | doomed run value =>
      obtain ⟨y, hy, hdoom⟩ := run.exists_doom rfl
      rw [hsound y (List.mem_append_left _ hy)] at hdoom
      cases hdoom
    | hook | committing => exact Or.inl rfl
    | conflict | committed => exact Or.inr (by simp [RegionEvent.isJudged])

/-- An execution that was refused has ended with the abort. -/
theorem refused_iff (C : Course notes x) (abort : HardwareAbort) :
    .refused abort ∈ notes ↔ notes = [.refused abort] ∧ x = .done (.error abort) := by
  refine ⟨fun h => ?_, fun h => h.1 ▸ List.mem_singleton_self _⟩
  have absent {body : List RegionEvent} {doom : Option HardwareAbort} (run : BodyRun body doom) :
      .refused abort ∉ body := fun h => by
    rcases run.kind h with h | h | ⟨code, h⟩ <;> cases h
  cases C with
  | starting => cases h
  | refused a =>
    obtain rfl : abort = a := by simpa using h
    exact ⟨rfl, rfl⟩
  | running run => exact absurd h (absent run)
  | failed run | returned run | doomed run | hook run | committing run | conflict run
  | committed run =>
    rcases List.mem_append.1 h with h | h
    · exact absurd h (absent run)
    · simp at h

end Course

namespace RegionSystem

variable {ι : Type} [DecidableEq ι] {s s' : RegionSystem ι} {c : RegionCall ι} {i : ι}

/-- When the body has returned a value in a region that is not doomed, the hook is called that is
due. -/
theorem hook?_of_call (h : s.call c = some s') (owner : c.owner? = some i) {r : Region}
    {value : Word} (hx : s.execution i = .returned r value) (sound : r.doomed = none) :
    (s'.execution i).hook? = s.backend.dueHook := by
  have idle {j : ι} {r : Region} (hbody : (s.execution j).body? = some r) (hj : some j = some i) :
      False := by
    rw [Option.some.inj hj, hx] at hbody
    cases hbody
  cases c with
  | advance j =>
    obtain rfl := Option.some.inj owner
    obtain ⟨⟨x, b', m'⟩, hadvance, rfl⟩ := Option.map_eq_some_iff.1 h
    rw [hx, Execution.advance, sound] at hadvance
    show (Function.update s.execution j x j).hook? = _
    rw [Function.update_self]
    cases hdue : s.backend.dueHook with
    | none | some name =>
      rw [hdue] at hadvance
      obtain ⟨rfl, -⟩ := Prod.mk.inj (Option.some.inj hadvance)
      rfl
  | read | write | abort | endBody =>
    obtain ⟨r, hbody, -⟩ := Option.map_eq_some_iff.1 h
    exact (idle hbody owner).elim
  | exchange | setFaults => cases owner

end RegionSystem

/-! ## Steps -/

theorem FaultEvent.returned_of_ready_mem {ι : Type} {i : ι} {x x' : Execution}
    (h : .ready i ∈ marks i x x') : ∃ r value, x = .returned r value := by
  cases x with
  | returned r value => exact ⟨r, value, rfl⟩
  | _ => simp [marks] at h

namespace FaultHistory

variable {ι : Type} [DecidableEq ι] {capacity : Nat} {m₀ : Memory} {d d' : FaultHistory ι}
  {log events : List (FaultEvent ι)} {i j : ι}

/-- What is logged of an execution is of no other. -/
theorem marks_others (h : j ≠ i) (x x' : Execution) :
    (∀ y ∈ FaultEvent.marks i x x', y.begins j = false) ∧ .ready j ∉ FaultEvent.marks i x x' := by
  unfold FaultEvent.marks
  split
  · simp [FaultEvent.begins, h.symm]
  · split
    · simp [FaultEvent.begins, h]
    · simp
  · simp

/-- Log and injector are as they should be. -/
structure Settled (e : Emulator) (log : List (FaultEvent ι)) : Prop where
  /-- The injector is as the log says. -/
  follows : e.faults.Follows log
  /-- All executions are counted. -/
  started : e.started = .ofNat (FaultLog.started log)
  /-- The log is as demanded. -/
  orderly : Orderly log

/-- An execution that looks for a hook does so for the first time. -/
theorem Settled.step {e e' : Emulator} (S : Settled e log) (L : e.Logs i events e')
    (fresh : .ready i ∈ events → .ready i ∉ log) : Settled e' (log ++ events) := by
  obtain ⟨follows, started, orderly⟩ := S
  cases L with
  | begins faults started' =>
    obtain ⟨hforced, F⟩ := follows.begin i
    refine ⟨faults ▸ F, ?_, orderly.concat ?_ (fun _ => nofun) (fun _ => rfl)⟩
    · rw [started', started, FaultLog.started_concat]
      exact (UInt64.ofNat_add ..).symm
    · rintro j f ⟨⟩
      exact hforced
  | looks =>
    have hdue : e.faults.dueHook = FaultLog.hook log := follows.dueHook_eq.trans follows.hook
    rw [hdue] at fresh ⊢
    have hlooks : ∀ y ∈ FaultEvent.ready i :: (FaultLog.hook log).toList.map (.hooked i),
        y.isLook = true := by simp [FaultEvent.isLook]
    have hnone : (FaultEvent.ready i :: (FaultLog.hook log).toList.map (.hooked i)).countP
        (·.isBegun) = 0 := by simp [FaultEvent.isBegun]
    refine ⟨follows.look hlooks, ?_, orderly.ready (fresh List.mem_cons_self)⟩
    rw [started, FaultLog.started, FaultLog.started, List.countP_append, hnone, Nat.add_zero]
  | quiet faults started' =>
    rw [List.append_nil]
    exact ⟨faults ▸ follows, started'.trans started, orderly⟩

/-- A history is kept well. -/
structure Kept (d : FaultHistory ι) : Prop where
  /-- Log and injector are as they should be. -/
  settled : ∃ e, d.diary.system.backend = .emulated e ∧ Settled e d.log
  /-- All executions are accounted for. -/
  accounted : ∀ i, Accounted d.log i (d.diary.notes i) (d.execution i)

/-- What a call does. -/
inductive Turn (d : FaultHistory ι) : FaultHistory ι → Prop
  /-- An order is given. -/
  | told {order : FaultOrder} {diary : RegionDiary ι}
      (sets : d.diary.call (.setFaults order.apply) = some diary) :
      Turn d ⟨diary, d.log ++ [.told order]⟩
  /-- Something else happens. -/
  | called {c : RegionCall ι} {diary : RegionDiary ι} (other : c.setsFaults = false)
      (calls : d.diary.call c = some diary) : Turn d ⟨diary, d.log ++ d.marks c diary⟩

theorem turn_of_step (h : d.Step d') : d.Turn d' := by
  obtain ⟨c, h⟩ := h
  cases c with
  | tell order =>
    rw [call] at h
    obtain ⟨diary, sets, rfl⟩ := Option.map_eq_some_iff.1 h
    exact .told sets
  | call c =>
    rw [call] at h
    split at h
    · cases h
    · next other =>
      obtain ⟨diary, calls, rfl⟩ := Option.map_eq_some_iff.1 h
      exact .called (Bool.not_eq_true _ ▸ other) calls

theorem reachable_diary (h : Reachable capacity m₀ d) : d.diary.Reachable capacity m₀ := by
  induction h with
  | refl => exact .refl
  | tail _ hstep ih =>
    cases turn_of_step hstep with
    | told sets => exact ih.tail ⟨_, sets⟩
    | called _ calls => exact ih.tail ⟨_, calls⟩

namespace Kept

theorem init (capacity : Nat) (m : Memory) : Kept (init capacity m : FaultHistory ι) :=
  ⟨⟨_, rfl, .none, rfl, .nil⟩, .starting⟩

/-- An order is followed, and no execution notices it. -/
theorem told (K : Kept d) {order : FaultOrder} {diary : RegionDiary ι}
    (sets : d.diary.call (.setFaults order.apply) = some diary) :
    Kept ⟨diary, d.log ++ [.told order]⟩ := by
  obtain ⟨s', hcall, rfl⟩ := Option.map_eq_some_iff.1 sets
  obtain ⟨e, emulated, S⟩ := K.settled
  obtain rfl := Option.some.inj hcall
  refine ⟨⟨{ e with faults := order.apply e.faults }, ?_, S.follows.tell order, ?_,
    S.orderly.concat nofun nofun fun _ => rfl⟩, fun i => ?_⟩
  · show d.diary.system.backend.modifyFaults order.apply = _
    rw [emulated]
    rfl
  · rw [FaultLog.started_concat]
    exact S.started
  · refine (K.accounted i).append (fun y hy => ?_) (by simp)
    rw [List.mem_singleton.1 hy]
    rfl

/-- What happens without an execution leaves the injector alone. -/
theorem called_by_none (K : Kept d) {c : RegionCall ι} {diary : RegionDiary ι}
    (other : c.setsFaults = false) (owner : c.owner? = none)
    (calls : d.diary.call c = some diary) : Kept ⟨diary, d.log ++ d.marks c diary⟩ := by
  obtain ⟨e, emulated, S⟩ := K.settled
  have hmarks : d.marks c diary = [] := by
    rw [marks, owner]
    rfl
  rw [hmarks, List.append_nil]
  obtain ⟨s', hcall, rfl⟩ := Option.map_eq_some_iff.1 calls
  refine ⟨?_, fun i => ?_⟩
  · cases c with
    | exchange a current new =>
      obtain rfl := Option.some.inj hcall
      refine ⟨e.publish, ?_, S.follows, S.started, S.orderly⟩
      show (d.diary.system.backend.compareExchange d.diary.system.memory a current new).2.1 = _
      rw [emulated]
      rfl
    | setFaults => cases other
    | _ => cases owner
  · obtain ⟨hexecution, hnotes, -⟩ :=
      RegionDiary.others_of_call calls (i := i) (by rw [owner]; nofun)
    have A := K.accounted i
    rw [execution, ← hexecution, ← hnotes] at A
    exact A

/-- A step of an execution is logged as it happens. -/
theorem called (K : Kept d) {c : RegionCall ι} {diary : RegionDiary ι}
    (course : Course (d.diary.notes i) (d.execution i)) (owner : c.owner? = some i)
    (calls : d.diary.call c = some diary) : Kept ⟨diary, d.log ++ d.marks c diary⟩ := by
  obtain ⟨e, emulated, S⟩ := K.settled
  obtain ⟨e', emulated', T, hnotes, -⟩ := RegionDiary.turn_of_call emulated calls owner
  have hmarks : d.marks c diary =
      FaultEvent.marks i (d.execution i) (diary.system.execution i) := by
    rw [marks, owner]
    exact List.append_nil _
  rw [hmarks]
  have L : e.Logs i (FaultEvent.marks i (d.execution i) (diary.system.execution i)) e' := by
    refine T.logs_marks fun r value hx sound => ?_
    obtain ⟨s', hcall, rfl⟩ := Option.map_eq_some_iff.1 calls
    rw [RegionSystem.hook?_of_call hcall owner hx sound, emulated]
    rfl
  refine ⟨⟨e', emulated', S.step L fun hnew hold => ?_⟩, fun j => ?_⟩
  -- Had it looked before, it would not be where its body has just returned.
  · obtain ⟨r, value, hx⟩ := FaultEvent.returned_of_ready_mem hnew
    exact (course.ready_iff.1 ((K.accounted i).ready_iff.1 hold)).2.2 r value hx
  · by_cases hj : j = i
    · subst hj
      rw [hnotes]
      exact (K.accounted j).turn T
    · obtain ⟨hexecution, hnotes', -⟩ := RegionDiary.others_of_call calls (i := j) fun h =>
        hj (Option.some.inj (h.symm.trans owner))
      obtain ⟨others, ready⟩ := marks_others hj (d.execution i) (diary.system.execution i)
      have A := (K.accounted j).append others ready
      rw [execution, ← hexecution, ← hnotes'] at A
      exact A

end Kept

theorem kept_of_reachable (h : Reachable capacity m₀ d) : Kept d := by
  induction h with
  | refl => exact .init capacity m₀
  | tail hreach hstep K =>
    have course := fun i => (RegionDiary.kept_of_reachable (reachable_diary hreach) i).course
    cases turn_of_step hstep with
    | told sets => exact K.told sets
    | @called c diary other calls =>
      cases owner : c.owner? with
      | none => exact K.called_by_none other owner calls
      | some i => exact K.called (course i) owner calls

/-- In every history. -/
theorem followsOrders_of_reachable (h : Reachable capacity m₀ d) : d.FollowsOrders := by
  have K := kept_of_reachable h
  have course (i : ι) : Course (d.diary.notes i) (d.execution i) :=
    (RegionDiary.kept_of_reachable (reachable_diary h) i).course
  obtain ⟨e, emulated, S⟩ := K.settled
  have same {e' : Emulator} (h : d.diary.system.backend = .emulated e') : e' = e :=
    Backend.emulated.inj (h.symm.trans emulated)
  refine ⟨?_, ?_, S.orderly.forced, fun i => (K.accounted i).once, fun i abort => ?_, fun i => ?_,
    ?_, ?_, fun i => ?_, S.orderly.hooked, S.orderly.unhooked⟩
  · rintro _ h
    obtain rfl := same h
    exact S.follows.armed_of_demand
  · rintro _ h
    obtain rfl := same h
    exact ⟨S.follows.takeForced_eq, S.follows.dueHook_eq⟩
  · rw [(K.accounted i).begun_iff]
    exact (course i).refused_iff abort
  · exact (K.accounted i).begun_iff none
  · rintro _ h
    obtain rfl := same h
    exact S.follows.injected
  · rintro _ h
    obtain rfl := same h
    exact S.started
  · rw [(K.accounted i).ready_iff, (course i).ready_iff]
    exact ⟨fun ⟨returned, sound, gone⟩ => ⟨returned, sound, gone⟩,
      fun R => ⟨R.returned, R.sound, R.gone⟩⟩

/-! ## A run -/

theorem reachable_of_run {calls : List (FaultCall ι)} (h : Reachable capacity m₀ d)
    (hrun : d.run calls = some d') : Reachable capacity m₀ d' := by
  refine h.trans (reflTransGen_of_run (fun _ => rfl) (fun d c calls d' h => ?_) hrun)
  obtain ⟨d₁, hcall, hrest⟩ := Option.bind_eq_some_iff.1 h
  exact ⟨d₁, ⟨c, hcall⟩, hrest⟩

/-- Two executions are to be aborted, and between them a hook is set. The third one finds the number
run out and calls the hook; while the hook runs, all executions are to be aborted and the hook is
removed. After that is cleared, a fifth one calls no hook. A sixth one, for which a hook is set,
aborts its region and calls none either. -/
def changingOrders : List (FaultCall Nat) :=
  [.tell (.failNext .capacity 2), .call (.advance 0), .tell (.setHook 7), .call (.advance 1),
    .call (.advance 2), .call (.endBody 2 (.ok 1)), .call (.advance 2),
    .tell (.failAlways .conflict), .tell .clearHook, .call (.advance 3), .call (.advance 2),
    .tell .clear, .call (.advance 4), .call (.endBody 4 (.ok 1)), .call (.advance 4),
    .tell (.setHook 8), .call (.advance 5), .call (.abort 5 9), .call (.endBody 5 (.ok 1)),
    .call (.advance 5)]

/-- The injector follows orders that change. -/
theorem followsOrders_of_changing_orders : ∃ d : FaultHistory Nat, Reachable 4 .zero d ∧
    d.log = [.told (.failNext .capacity 2), .begun 0 (some .capacity), .told (.setHook 7),
      .begun 1 (some .capacity), .begun 2 none, .ready 2, .hooked 2 7,
      .told (.failAlways .conflict), .told .clearHook, .begun 3 (some .conflict), .told .clear,
      .begun 4 none, .ready 4, .told (.setHook 8), .begun 5 none] ∧ d.FollowsOrders := by
  have facts : ((init 4 .zero).run changingOrders).map (·.log) =
      some [.told (.failNext .capacity 2), .begun 0 (some .capacity), .told (.setHook 7),
        .begun 1 (some .capacity), .begun 2 none, .ready 2, .hooked 2 7,
        .told (.failAlways .conflict), .told .clearHook, .begun 3 (some .conflict), .told .clear,
        .begun 4 none, .ready 4, .told (.setHook 8), .begun 5 none] := by
    decide +kernel
  obtain ⟨d, hrun, hlog⟩ := Option.map_eq_some_iff.1 facts
  have hreach : Reachable 4 .zero d := reachable_of_run .refl hrun
  exact ⟨d, hreach, hlog, followsOrders_of_reachable hreach⟩

end FaultHistory

end HybridTM
