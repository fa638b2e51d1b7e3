import HybridTM.Proofs.AbortSources
import HybridTM.Proofs.Fallback

/-!
# Aborts that do not count

An abort chronicle keeps beside the workers on a runtime what came about in each of their regions.
From this alone it can be told which aborts do not count
(`AbortChronicle.excusedBySource_of_reachable`): those of regions that read another mode than
hardware, and also those to which a fault or the body gave the same code.

The former do not happen to a worker that is alone, and so, if neither faults nor its bodies use the
code, it falls back in time. A body that does use it can keep its call in hardware for as long as it
likes (`AbortChronicle.Poised.endless`).
-/

set_option autoImplicit false

namespace HybridTM

/-! ## Attempts that aborted -/

/-- The abort of an attempt that was a region and aborted. -/
def Trial.abort? : Trial → Option HardwareAbort
  | ⟨.hardware, _, .failed (.hardware abort)⟩ => some abort
  | _ => none

theorem Trial.isAbort_eq (t : Trial) : t.isAbort = t.abort?.any (!·.isModeChange) := by
  obtain ⟨path, writes, outcome⟩ := t
  cases path <;> rcases outcome with _ | (_ | _ | _ | _) | _ <;> rfl

theorem Trial.changesMode_eq (t : Trial) : t.changesMode = t.abort?.any (·.isModeChange) := by
  obtain ⟨path, writes, outcome⟩ := t
  cases path <;> rcases outcome with _ | (_ | _ | _ | _) | _ <;> rfl

/-- An attempt that was a region and aborts leaves a phase that says so. -/
theorem Phase.eq_of_mem_turns {p p' : Phase} {q : Request} {writes : List Access} {x : Trial}
    {abort : HardwareAbort} (hx : x ∈ (p.turns q p' writes).filterMap Event.trial?)
    (habort : x.abort? = some abort) :
    ∃ failures, p' = .hardware failures (.done (.error abort)) := by
  unfold turns at hx
  split at hx
  · cases hx
  · next path hp hp' =>
    obtain rfl := List.mem_singleton.1 hx
    unfold outcome at habort
    split at habort
    · cases path <;> cases habort
    · next _ _ tx _ _ =>
      obtain rfl : Path.ofRole tx.role = path := Option.some.inj hp
      cases hrole : tx.role <;> rw [hrole] at habort <;> cases habort
    · next failures _ _ _ =>
      cases path <;> cases habort
      exact ⟨failures, rfl⟩
    · cases path <;> cases habort
  · cases hx

/-! ## Chronicles of aborts -/

/-- An attempt that has ended, with what came about in it. -/
structure SourcedTrial where
  /-- The attempt. -/
  trial : Trial
  /-- What came about in it, if it was a region. -/
  sources : AbortSources

/-- Workers on one runtime and what came about in their regions. -/
structure AbortChronicle (ι : Type) where
  /-- The workers and what happened to them. -/
  chronicle : Chronicle ι
  /-- What came about in the last region of each worker. -/
  sources : ι → AbortSources
  /-- The attempts of the last call of each worker that have ended, oldest first. -/
  trials : ι → List SourcedTrial

namespace AbortChronicle

variable {ι : Type} [DecidableEq ι]

/-- New workers on a runtime. -/
def start (r : Runtime) : AbortChronicle ι := ⟨.start r, fun _ => .empty, fun _ => []⟩

/-- The phase of a worker. -/
def phase (c : AbortChronicle ι) (i : ι) : Phase := c.chronicle.phase i

/-- What has come about in the last region of a worker after a step of its own. -/
def nextSources (c : AbortChronicle ι) (i : ι) (q : Request) (reply : Reply) : AbortSources :=
  (c.sources i).after c.chronicle.system.runtime.backend c.chronicle.shared (c.phase i) q reply

/-- The attempt that ends in a step of one worker to a phase. -/
def ended (c : AbortChronicle ι) (i : ι) (q : Request) (reply : Reply) (p' : Phase) :
    List SourcedTrial :=
  (((c.phase i).turns q p' (c.chronicle.notes i).writes).filterMap Event.trial?).map
    (⟨·, c.nextSources i q reply⟩)

/-- The attempts before a step of one worker that are not forgotten. -/
def kept (c : AbortChronicle ι) (i : ι) : Request → List SourcedTrial
  | .call => []
  | _ => c.trials i

/-- The state after a step of one worker that leads to another chronicle. -/
def after (c : AbortChronicle ι) (i : ι) (q : Request) (reply : Reply) (d : Chronicle ι) :
    AbortChronicle ι where
  chronicle := d
  sources := Function.update c.sources i (c.nextSources i q reply)
  trials := Function.update c.trials i (c.kept i q ++ c.ended i q reply (d.phase i))

/-- One step of one worker. -/
def act (c : AbortChronicle ι) (i : ι) (q : Request) : Option (Reply × AbortChronicle ι) :=
  (c.chronicle.act i q).map fun (reply, d) => (reply, c.after i q reply d)

/-- Other faults are injected. -/
def withFaults (c : AbortChronicle ι) (f : Faults → Faults) : AbortChronicle ι :=
  { c with chronicle := c.chronicle.withFaults f }

/-- A worker makes a step, or other faults are injected. -/
inductive Step (c : AbortChronicle ι) : AbortChronicle ι → Prop
  | act (i : ι) (q : Request) (spares : q.SparesMode) {reply : Reply} {c' : AbortChronicle ι}
      (acts : c.act i q = some (reply, c')) : Step c c'
  | faults (f : Faults → Faults) : Step c (c.withFaults f)

/-- The chronicles that steps lead to from new workers on a runtime. -/
def Reachable (r : Runtime) (c : AbortChronicle ι) : Prop :=
  Relation.ReflTransGen Step (start r) c

/-- The chronicle after steps in the given order, if all of them are possible. -/
def run (c : AbortChronicle ι) : List (ι × Request) → Option (AbortChronicle ι)
  | [] => some c
  | (i, q) :: steps => (c.act i q).bind fun (_, c') => c'.run steps

/-- One worker goes on with its call, in so many moves, and nobody else does anything. Faults may be
injected. -/
inductive Alone (i : ι) (c : AbortChronicle ι) : Nat → AbortChronicle ι → Prop
  | refl : Alone i c 0 c
  | act {n : Nat} {c₁ c₂ : AbortChronicle ι} (before : Alone i c n c₁) (q : Request)
      (spares : q.SparesMode) (same : q ≠ .call) {reply : Reply}
      (acts : c₁.act i q = some (reply, c₂)) : Alone i c (n + q.isMove.toNat) c₂
  | faults {n : Nat} {c₁ : AbortChronicle ι} (before : Alone i c n c₁) (f : Faults → Faults) :
      Alone i c n (c₁.withFaults f)

/-- A worker is about to try hardware, and nothing stands in its way. -/
structure Poised (c : AbortChronicle ι) (i : ι) (failures : UInt32) : Prop where
  /-- It chooses a path. -/
  phase : c.phase i = .dispatch failures
  /-- It will go to hardware, and the body of a region will run. -/
  clear : (c.chronicle.system.worker i).Clear c.chronicle.system.runtime failures

/-- Which aborts of regions count. -/
structure ExcusedBySource (c : AbortChronicle ι) (r : Runtime) : Prop where
  /-- A region that aborted is excused just if it read another mode than hardware, or if a fault or
  its body gave it the code. -/
  settled : ∀ i failures abort, c.phase i = .hardware failures (.done (.error abort)) → ∀ ticks,
    (c.chronicle.system.worker i).heuristic.HasRoom ticks →
      ∃ reply c', c.act i (.account ticks) = some (reply, c') ∧
        (c.chronicle.system.worker i).Settles (c'.chronicle.system.worker i) r.config.maxRetries
          failures abort ticks (c.sources i).excuses
  /-- The attempts are those of the last call. -/
  complete : ∀ i, (c.trials i).map SourcedTrial.trial = (c.chronicle.notes i).trials
  /-- So were all of them that aborted. -/
  excused : ∀ i, ∀ x ∈ c.trials i, ∀ abort, x.trial.abort? = some abort →
    abort.isModeChange = x.sources.excuses
  /-- The others are as few as the settings say. -/
  few : ∀ i, (c.trials i).countP (fun x => x.trial.abort?.isSome && !x.sources.excuses) ≤
    r.config.maxRetries.toNat
  /-- No region of a worker that is alone reads another mode than hardware, and if neither faults
  nor bodies use the code, its call leaves hardware in time. -/
  alone : ∀ i reply c₁ n c₂, c.chronicle.Lone r i → c.act i .call = some (reply, c₁) →
    Alone i c₁ n c₂ → (∀ x ∈ c₂.trials i, x.sources.byMode = false) ∧
      ((∀ x ∈ c₂.trials i, x.sources.byFault = false ∧ x.sources.byBody = false) →
        Chronicle.Course r i c₁.chronicle n c₂.chronicle)
  /-- A body that uses it can keep the call of any worker in hardware for as long as it likes. -/
  endless : ∀ i failures, c.Poised i failures → ∀ n, ∃ c' later,
    Relation.ReflTransGen Step c c' ∧ c'.Poised i failures ∧
      (c'.chronicle.system.worker i).heuristic = (c.chronicle.system.worker i).heuristic ∧
      c'.trials i = c.trials i ++ later ∧ later.length = n ∧
      ∀ x ∈ later, x.trial.changesMode = true ∧ x.sources.byMode = false ∧
        x.sources.byFault = false

/-! ### What stays -/

variable {c c' : AbortChronicle ι} {i : ι} {q : Request} {reply : Reply} {r : Runtime} {n : Nat}

theorem act_eq_some (h : c.act i q = some (reply, c')) :
    ∃ d, c.chronicle.act i q = some (reply, d) ∧ c' = c.after i q reply d := by
  obtain ⟨⟨reply', d⟩, hact, heq⟩ := Option.map_eq_some_iff.1 h
  obtain ⟨rfl, rfl⟩ := Prod.mk.inj heq
  exact ⟨d, hact, rfl⟩

/-- A step is one of the chronicle. What came about in it is kept, and so are attempts that end in
it. -/
theorem sources_of_act (h : c.act i q = some (reply, c')) :
    c.chronicle.act i q = some (reply, c'.chronicle) ∧ c'.sources i = c.nextSources i q reply ∧
      c'.trials i = c.kept i q ++ c.ended i q reply (c'.phase i) ∧
      ∀ j, j ≠ i → c'.phase j = c.phase j ∧ c'.chronicle.notes j = c.chronicle.notes j ∧
        c'.sources j = c.sources j ∧ c'.trials j = c.trials j := by
  obtain ⟨d, hact, rfl⟩ := act_eq_some h
  obtain ⟨-, -, -, hothers⟩ := Chronicle.turn_of_act hact
  refine ⟨hact, Function.update_self .., Function.update_self .., fun j hj => ?_⟩
  exact ⟨congrArg Worker.phase (hothers j hj).1, (hothers j hj).2, Function.update_of_ne hj _ _,
    Function.update_of_ne hj _ _⟩

theorem steps_of_run {steps : List (ι × Request)} (spares : ∀ x ∈ steps, x.2.SparesMode)
    (h : c.run steps = some c') : Relation.ReflTransGen Step c c' := by
  refine reflTransGen_of_allowed (fun _ => rfl) (fun c x steps c' hq h => ?_) spares h
  obtain ⟨⟨reply, c₁⟩, hact, hrest⟩ := Option.bind_eq_some_iff.1 h
  exact ⟨c₁, .act x.1 x.2 hq hact, hrest⟩

theorem Reachable.chronicle (h : Reachable r c) : Chronicle.Reachable r c.chronicle := by
  induction h with
  | refl => exact .refl
  | tail _ hstep ih =>
    cases hstep with
    | act i q spares acts => exact ih.step (.act i q spares (sources_of_act acts).1)
    | faults f => exact ih.step (.faults f)

theorem Alone.chronicle (A : Alone i c n c') : Chronicle.Alone i c.chronicle n c'.chronicle := by
  induction A with
  | refl => exact .refl
  | act before q spares same acts ih => exact .act ih q spares same (sources_of_act acts).1
  | faults before f ih => exact .faults ih f

theorem Alone.reachable (A : Alone i c n c') (h : Reachable r c) : Reachable r c' := by
  induction A with
  | refl => exact h
  | act before q spares same acts ih => exact .tail ih (.act i q spares acts)
  | faults before f ih => exact .tail ih (.faults f)

/-- What every step keeps of the worker that makes it, and what holds in the beginning, holds of all
workers. -/
theorem Reachable.forall_worker {P : Phase → Notes → AbortSources → List SourcedTrial → Prop}
    (h : Reachable r c) (new : P (.resting none) .empty .empty [])
    (step : ∀ {c c' : AbortChronicle ι} {i : ι} {q : Request} {reply : Reply}, Reachable r c →
      Reachable r c' → c.act i q = some (reply, c') →
        P (c.phase i) (c.chronicle.notes i) (c.sources i) (c.trials i) →
          P (c'.phase i) (c'.chronicle.notes i) (c'.sources i) (c'.trials i)) (i : ι) :
    P (c.phase i) (c.chronicle.notes i) (c.sources i) (c.trials i) := by
  induction h generalizing i with
  | refl => exact new
  | @tail c c' hc hstep ih =>
    cases hstep with
    | act j q spares acts =>
      by_cases hi : i = j
      · subst hi
        exact step hc (.tail hc (.act i q spares acts)) acts (ih i)
      · obtain ⟨-, -, -, hothers⟩ := sources_of_act acts
        obtain ⟨hphase, hnotes, hsources, htrials⟩ := hothers i hi
        rw [hphase, hnotes, hsources, htrials]
        exact ih i
    | faults f => exact ih i

/-- The attempts are those of the last call. -/
theorem trials_of_reachable (h : Reachable r c) (i : ι) :
    (c.trials i).map SourcedTrial.trial = (c.chronicle.notes i).trials := by
  refine h.forall_worker
    (P := fun _ notes _ trials => trials.map SourcedTrial.trial = notes.trials) rfl
    (fun {c c' i q reply} _ _ acts ih => ?_) i
  obtain ⟨hact, -, htrials, -⟩ := sources_of_act acts
  obtain ⟨-, hnotes, -, -⟩ := Chronicle.turn_of_act hact
  have ended : (c.ended i q reply (c'.phase i)).map SourcedTrial.trial =
      (c.chronicle.events i q (c'.phase i)).filterMap Event.trial? := by
    rw [AbortChronicle.ended, List.map_map, Chronicle.events, Phase.filterMap_events rfl rfl]
    exact List.map_id _
  rw [hnotes, htrials, List.map_append, ended]
  refine congrArg (· ++ _) ?_
  cases q with
  | call => rfl
  | _ => exact ih

variable [Fintype ι]

/-- Every phase agrees with what came about. -/
theorem agrees_of_reachable (created : r.Created) (h : Reachable r c) (i : ι) :
    (c.phase i).Agrees (c.sources i) := by
  refine h.forall_worker (P := fun p _ t _ => p.Agrees t) trivial
    (fun {c c' i q reply} hc _ acts A => ?_) i
  obtain ⟨hact, hsources, -, -⟩ := sources_of_act acts
  rw [hsources]
  exact Worker.agrees_of_act (Chronicle.worker_of_act hact)
    (Chronicle.buffers_of_reachable hc.chronicle i)
    ((System.valid_of_reachable created hc.chronicle.system).sound i) A

/-- The sources tell which aborts are excused. -/
theorem excused_of_reachable (created : r.Created) (h : Reachable r c) (i : ι) :
    ∀ x ∈ c.trials i, ∀ abort, x.trial.abort? = some abort →
      abort.isModeChange = x.sources.excuses := by
  refine h.forall_worker (P := fun _ _ _ trials => ∀ x ∈ trials, ∀ abort,
    x.trial.abort? = some abort → abort.isModeChange = x.sources.excuses) (List.forall_mem_nil _)
    (fun {c c' i q reply} _ hc' acts ih => ?_) i
  obtain ⟨hact, hsources, htrials, -⟩ := sources_of_act acts
  rw [htrials]
  intro x hx abort habort
  rcases List.mem_append.1 hx with hx | hx
  · cases q with
    | call => cases hx
    | _ => exact ih x hx abort habort
  · obtain ⟨trial, htrial, rfl⟩ := List.mem_map.1 hx
    obtain ⟨failures, hphase⟩ := Phase.eq_of_mem_turns htrial habort
    have A := agrees_of_reachable created hc' i
    rw [show c'.phase i = _ from hphase, hsources] at A
    exact A

/-- The aborts that count are as few as the settings say. -/
theorem few_of_reachable (created : r.Created) (h : Reachable r c) (i : ι) :
    (c.trials i).countP (fun x => x.trial.abort?.isSome && !x.sources.excuses) ≤
      r.config.maxRetries.toNat := by
  have excused := excused_of_reachable created h i
  calc (c.trials i).countP (fun x => x.trial.abort?.isSome && !x.sources.excuses)
      = (c.trials i).countP (·.trial.isAbort) := by
        refine List.countP_congr fun x hx => ?_
        rw [Trial.isAbort_eq]
        cases habort : x.trial.abort? with
        | none => rfl
        | some abort =>
          rw [← excused x hx abort habort]
          rfl
    _ = aborts (c.chronicle.notes i).trials := by
        rw [← trials_of_reachable h i, aborts, List.countP_map]
        rfl
    _ ≤ r.config.maxRetries.toNat := (Chronicle.allows_of_reachable h.chronicle i).le

/-! ### Alone -/

omit [DecidableEq ι] [Fintype ι] in
/-- A region has read another mode only after a read that found it. -/
theorem byMode_nextSources (h : (c.sources i).byMode = false)
    (reads : ∀ failures region word region', c.phase i = .checking failures region →
      c.chronicle.system.runtime.backend.read region c.chronicle.shared.memory Runtime.modeAddr
        fullMask = (.ok word, region') → (ModeSnapshot.decode word).mode = .hw) :
    (c.nextSources i q reply).byMode = false := by
  unfold nextSources AbortSources.after
  split
  · rfl
  · rfl
  · split <;> exact h
  · next failures region hphase =>
    split
    · next word hread =>
      have hmode := reads failures region word _ hphase (Prod.ext hread rfl)
      simp [AbortSources.byMode, hmode]
    · exact h
  all_goals exact h

/-- A region of a worker that is alone reads hardware mode. -/
theorem hardware_of_lone (created : r.Created) (h : Reachable r c) (L : c.chronicle.Lone r i)
    {failures : UInt32} {region region' : Region} {word : Word}
    (hphase : c.phase i = .checking failures region)
    (reads : c.chronicle.system.runtime.backend.read region c.chronicle.shared.memory
      Runtime.modeAddr fullMask = (.ok word, region')) :
    (ModeSnapshot.decode word).mode = .hw := by
  have S := (System.valid_of_reachable created h.chronicle.system).sound i
  rw [show (c.chronicle.system.worker i).phase = _ from hphase] at S
  obtain ⟨outside, -, hwrites, -⟩ := S
  have hstake : c.chronicle.system.stake i = .none := by
    show (c.phase i).stake _ = _
    rw [hphase, outside]
    rfl
  obtain ⟨rfl, -, -⟩ := Backend.read_of_writes_eq_empty hwrites reads
  exact congrArg ModeSnapshot.mode (L.mode_of_none created h.chronicle hstake)

/-- None of its regions in a call reads another. -/
theorem byMode_of_alone (created : r.Created) (h : Reachable r c) (L : c.chronicle.Lone r i)
    {c₁ c₂ : AbortChronicle ι} (acts : c.act i .call = some (reply, c₁)) (A : Alone i c₁ n c₂) :
    (c₂.sources i).byMode = false ∧ ∀ x ∈ c₂.trials i, x.sources.byMode = false := by
  obtain ⟨hcall, hsources, htrials, -⟩ := sources_of_act acts
  have h₁ : Reachable r c₁ := .tail h (.act i .call trivial acts)
  have L₁ := L.of_act hcall
  induction A with
  | refl =>
    obtain ⟨hrest, hphase, -⟩ := Chronicle.call_of_act hcall
    obtain ⟨last, hlast⟩ := Phase.isResting_iff.1 hrest
    refine ⟨?_, ?_⟩
    · rw [hsources, nextSources, show c.phase i = _ from hlast]
      rfl
    · rw [htrials, ended, show c.phase i = _ from hlast, show c₁.phase i = _ from hphase]
      exact List.forall_mem_nil _
  | @act n c' c'' before q spares same reply acts ih =>
    obtain ⟨-, hsources, htrials, -⟩ := sources_of_act acts
    have found : (c'.nextSources i q reply).byMode = false :=
      byMode_nextSources ih.1 fun failures region word region' hphase hread =>
        hardware_of_lone created (before.reachable h₁) (before.chronicle.lone L₁) hphase hread
    refine ⟨hsources ▸ found, ?_⟩
    rw [htrials]
    intro x hx
    rcases List.mem_append.1 hx with hx | hx
    · cases q with
      | call => exact absurd rfl same
      | _ => exact ih.2 x hx
    · obtain ⟨trial, -, rfl⟩ := List.mem_map.1 hx
      exact found
  | faults before f ih => exact ih

/-- So without faults and bodies that use the code its call leaves hardware in time. -/
theorem course_of_alone (created : r.Created) (h : Reachable r c) (L : c.chronicle.Lone r i)
    {c₁ c₂ : AbortChronicle ι} (acts : c.act i .call = some (reply, c₁)) (A : Alone i c₁ n c₂)
    (unused : ∀ x ∈ c₂.trials i, x.sources.byFault = false ∧ x.sources.byBody = false) :
    Chronicle.Course r i c₁.chronicle n c₂.chronicle := by
  have h₂ : Reachable r c₂ := A.reachable (.tail h (.act i .call trivial acts))
  refine Chronicle.course_of_alone created h.chronicle L (sources_of_act acts).1 A.chronicle ?_
  intro t ht
  rw [← trials_of_reachable h₂ i] at ht
  obtain ⟨x, hx, rfl⟩ := List.mem_map.1 ht
  rw [Trial.changesMode_eq]
  cases habort : x.trial.abort? with
  | none => rfl
  | some abort =>
    obtain ⟨hfault, hbody⟩ := unused x hx
    show abort.isModeChange = false
    rw [excused_of_reachable created h₂ i x hx abort habort, AbortSources.excuses, hfault, hbody,
      (byMode_of_alone created h L acts A).2 x hx]
    rfl

/-! ### Bodies that use the code -/

omit [Fintype ι] in
/-- What its worker can do, an abort chronicle can. -/
theorem exists_act {w : Worker} {r' : Runtime}
    (h : (c.chronicle.system.worker i).act c.chronicle.system.runtime q = some (reply, w, r')) :
    ∃ c', c.act i q = some (reply, c') ∧ c'.chronicle.system.worker i = w ∧
      c'.chronicle.system.runtime = r' ∧
      c'.trials i = c.kept i q ++ c.ended i q reply w.phase := by
  have hact : c.act i q = some (reply, c.after i q reply (c.chronicle.after i q
      ⟨r', Function.update c.chronicle.system.worker i w⟩)) := by
    rw [act, Chronicle.act, System.act, h]
    rfl
  have hworker : (Function.update c.chronicle.system.worker i w) i = w := Function.update_self ..
  obtain ⟨-, -, htrials, -⟩ := sources_of_act hact
  exact ⟨_, hact, hworker, rfl, htrials.trans
    (congrArg (c.kept i q ++ c.ended i q reply ·) (congrArg Worker.phase hworker))⟩

omit [Fintype ι] in
/-- A step of a worker that stays clear and in which no attempt ends. -/
theorem exists_goto {failures : UInt32} {p' : Phase} {r' : Runtime}
    (h : (c.chronicle.system.worker i).act c.chronicle.system.runtime q =
      some (reply, (c.chronicle.system.worker i).goto p', r'))
    (C : (c.chronicle.system.worker i).Clear r' failures)
    (spares : q.SparesMode) (hq : c.kept i q = c.trials i)
    (silent : c.ended i q reply p' = []) :
    ∃ c', Step c c' ∧ c'.phase i = p' ∧
      (c'.chronicle.system.worker i).Clear c'.chronicle.system.runtime failures ∧
      (c'.chronicle.system.worker i).heuristic = (c.chronicle.system.worker i).heuristic ∧
      c'.trials i = c.trials i := by
  obtain ⟨c', hact, hworker, hruntime, htrials⟩ := exists_act h
  refine ⟨c', .act i q spares hact, congrArg Worker.phase hworker, ?_, ?_, ?_⟩
  · rw [hworker, hruntime]
    exact C.goto p'
  · rw [hworker]
    rfl
  · rw [htrials, hq, show ((c.chronicle.system.worker i).goto p').phase = p' from rfl, silent,
      List.append_nil]

omit [Fintype ι] in
/-- The body of a region comes to run. -/
theorem Poised.exists_running {failures : UInt32} (P : c.Poised i failures) :
    ∃ c' region, Relation.ReflTransGen Step c c' ∧
      c'.phase i = .hardware failures (.running region) ∧
      (c'.chronicle.system.worker i).Clear c'.chronicle.system.runtime failures ∧
      (c'.chronicle.system.worker i).heuristic = (c.chronicle.system.worker i).heuristic ∧
      c'.trials i = c.trials i := by
  obtain ⟨p₀, C₀⟩ := P
  obtain ⟨c₁, s₁, p₁, C₁, a₁, x₁⟩ := exists_goto (C₀.act_dispatch p₀) C₀ trivial rfl
    (by rw [ended, p₀]; rfl)
  obtain ⟨region, r', enters, reads, writes, sound, C'⟩ := C₁.exists_enter p₁
  obtain ⟨c₂, s₂, p₂, C₂, a₂, x₂⟩ := exists_goto enters C' trivial rfl
    (by rw [ended, p₁]; rfl)
  obtain ⟨region', checks⟩ := C₂.exists_check p₂ reads writes sound
  obtain ⟨c₃, s₃, p₃, C₃, a₃, x₃⟩ := exists_goto checks C₂ trivial rfl
    (by rw [ended, p₂]; rfl)
  exact ⟨c₃, region', .tail (.tail (.single s₁) s₂) s₃, p₃, C₃, a₃.trans (a₂.trans a₁),
    x₃.trans (x₂.trans x₁)⟩

/-- A body that aborts its region with the code brings its worker back. -/
theorem Poised.exists_retry (created : r.Created) (h : Reachable r c) {failures : UInt32}
    (P : c.Poised i failures) : ∃ c' x, Relation.ReflTransGen Step c c' ∧ c'.Poised i failures ∧
      (c'.chronicle.system.worker i).heuristic = (c.chronicle.system.worker i).heuristic ∧
      c'.trials i = c.trials i ++ [x] ∧ x.trial.changesMode = true ∧
      x.sources.byMode = false ∧ x.sources.byFault = false := by
  obtain ⟨c₁, region, s₁, p₁, C₁, a₁, x₁⟩ := P.exists_running
  obtain ⟨c₂, s₂, p₂, C₂, a₂, x₂⟩ := exists_goto
    (Worker.Clear.act_abort p₁ AbortCode.modeChanged) C₁ trivial rfl
    (by rw [ended, p₁]; rfl)
  have A : Region.Agrees _ _ := p₂ ▸ agrees_of_reachable created (.tail (h.trans s₁) s₂) i
  -- Whatever the body returns, its region has aborted.
  let err : TxError := .validationFailure
  let x : SourcedTrial := ⟨⟨.hardware, (c₂.chronicle.notes i).writes,
    .failed (.hardware (.explicit AbortCode.modeChanged))⟩,
    { c₂.sources i with error := some err }⟩
  obtain ⟨c₃, act₃, w₃, r₃, x₃⟩ := exists_act (Worker.Clear.act_endBody p₂ rfl err)
  have hx : c₃.trials i = c₂.trials i ++ [x] := by
    rw [x₃, show c₂.kept i (.endBody (.error err)) = c₂.trials i from rfl, ended, nextSources, p₂]
    rfl
  have C₃ : (c₃.chronicle.system.worker i).Clear c₃.chronicle.system.runtime failures := by
    rw [w₃, r₃]
    exact C₂.goto _
  have s₃ : Relation.ReflTransGen Step c c₃ :=
    .tail (.tail s₁ s₂) (.act i (.endBody (.error err)) trivial act₃)
  have room : (c₃.chronicle.system.worker i).heuristic.HasRoom 0 :=
    Chronicle.hasRoom_of_reachable (Reachable.chronicle (h.trans s₃)) i
  obtain ⟨w, accounts, phase, heuristic, C'⟩ :=
    C₃.exists_account (congrArg Worker.phase w₃) rfl room
  obtain ⟨c₄, act₄, w₄, r₄, x₄⟩ := exists_act accounts
  have silent : c₃.ended i (.account 0) .done w.phase = [] := by
    rw [ended, phase, show c₃.phase i = _ from congrArg Worker.phase w₃]
    rfl
  refine ⟨c₄, x, .tail s₃ (.act i (.account 0) trivial act₄),
    ⟨(congrArg Worker.phase w₄).trans phase, ?_⟩, ?_, ?_, rfl, A.hardware, ?_⟩
  · rw [w₄, r₄]
    exact C'
  · rw [w₄, heuristic, w₃, ← a₁, ← a₂]
    rfl
  · rw [x₄, silent, List.append_nil, show c₃.kept i (.account 0) = c₃.trials i from rfl, hx, x₂,
      x₁]
  · show (c₂.sources i).refused.any _ = false
    rw [A.started]
    rfl

/-- For as long as it likes. -/
theorem Poised.endless (created : r.Created) (h : Reachable r c) {failures : UInt32}
    (P : c.Poised i failures) (n : Nat) : ∃ c' later, Relation.ReflTransGen Step c c' ∧
      c'.Poised i failures ∧
      (c'.chronicle.system.worker i).heuristic = (c.chronicle.system.worker i).heuristic ∧
      c'.trials i = c.trials i ++ later ∧ later.length = n ∧
      ∀ x ∈ later, x.trial.changesMode = true ∧ x.sources.byMode = false ∧
        x.sources.byFault = false := by
  induction n with
  | zero => exact ⟨c, [], .refl, P, rfl, (List.append_nil _).symm, rfl, List.forall_mem_nil _⟩
  | succ n ih =>
    obtain ⟨c₁, later, s₁, P₁, a₁, x₁, rfl, hlater⟩ := ih
    obtain ⟨c₂, x, s₂, P₂, a₂, x₂, hx⟩ := P₁.exists_retry created (h.trans s₁)
    refine ⟨c₂, later ++ [x], s₁.trans s₂, P₂, a₂.trans a₁, ?_, ?_, ?_⟩
    · rw [x₂, x₁, List.append_assoc]
    · rw [List.length_append, List.length_singleton]
    · exact List.forall_mem_append.2 ⟨hlater, List.forall_mem_singleton.2 hx⟩

/-! ### What counts -/

/-- A region that aborted is excused just if it read another mode than hardware, or if a fault or
its body gave it the code. All other aborts count, and a worker that is alone and whose faults and
bodies do not use the code leaves hardware in time. -/
theorem excusedBySource_of_reachable (created : r.Created) (h : Reachable r c) :
    c.ExcusedBySource r where
  settled i failures abort hphase ticks room := by
    obtain ⟨w, r', hworker, settles⟩ :=
      Worker.exists_settles c.chronicle.system.runtime hphase room
    have A := agrees_of_reachable created h i
    rw [hphase] at A
    rw [show abort.isModeChange = _ from A,
      (Chronicle.config_of_reachable h.chronicle).1] at settles
    obtain ⟨c', hact, rfl, -⟩ := exists_act hworker
    exact ⟨_, c', hact, settles⟩
  complete := trials_of_reachable h
  excused := excused_of_reachable created h
  few := few_of_reachable created h
  alone _ _ _ _ _ L acts A :=
    ⟨(byMode_of_alone created h L acts A).2, course_of_alone created h L acts A⟩
  endless _ _ P := P.endless created h

/-- A runtime allows one try. A body aborts its region with the code, though the runtime never
leaves hardware mode, and its worker tries again and commits. -/
theorem excusedBySource_of_borrowed_code : ∃ (r : Runtime) (c : AbortChronicle Unit),
    r.Created ∧ Reachable r c ∧ r.config.maxRetries = 1 ∧
      (c.trials ()).map (·.trial.outcome) =
        [.failed (.hardware (.explicit AbortCode.modeChanged)), .committed] ∧
      (c.trials ()).map (·.sources.excuses) = [true, false] ∧
      (c.trials ()).map (·.sources.byMode) = [false, false] ∧ c.ExcusedBySource r := by
  let enter : List Request := [.advance, .advance, .advance]
  let steps : List Request := [.call] ++ enter ++
    [.abort AbortCode.modeChanged, .endBody (.error (.hardware (.explicit AbortCode.modeChanged))),
      .account 1] ++ enter ++ [.endBody (.ok 5), .advance, .advance, .account 1]
  have facts : ((Runtime.create (.emulated (.withCapacity 8)) { maxRetries := 1 } [1]
      .empty).toOption.bind fun r =>
        ((start r : AbortChronicle Unit).run (steps.map ((), ·))).map fun c =>
          decide (r.config.maxRetries = 1 ∧
            (c.trials ()).map (·.trial.outcome) =
              [.failed (.hardware (.explicit AbortCode.modeChanged)), .committed] ∧
            (c.trials ()).map (·.sources.excuses) = [true, false] ∧
            (c.trials ()).map (·.sources.byMode) = [false, false])) = some true := by
    decide +kernel
  obtain ⟨r, hcreate, hrun⟩ := Option.bind_eq_some_iff.1 facts
  obtain ⟨c, hrun, hc⟩ := Option.map_eq_some_iff.1 hrun
  obtain ⟨hretries, houtcomes, hexcuses, hmodes⟩ := of_decide_eq_true hc
  have created : r.Created := ⟨_, _, _, _, Runtime.create_of_toOption hcreate⟩
  have reachable : Reachable r c :=
    steps_of_run (by simp [steps, enter, Request.SparesMode]) hrun
  exact ⟨r, c, created, reachable, hretries, houtcomes, hexcuses, hmodes,
    excusedBySource_of_reachable created reachable⟩

end AbortChronicle

end HybridTM
