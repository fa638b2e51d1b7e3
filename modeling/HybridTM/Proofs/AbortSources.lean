import HybridTM.Proofs.Buffers
import HybridTM.Proofs.HardwareRetries
import HybridTM.Proofs.Verdicts

/-!
# What aborts of regions come from

An abort comes from what came about in the last region of a call (`AbortSources`): the abort that it
got instead of a start, what it read in the mode word, whether an access failed, the code with which
its body aborted it, and the error that the body returned. This is enough to tell whether the abort
of the region has the code of a change of the mode (`Worker.agrees_of_act`), which is all that
decides whether it counts (`Worker.exists_settles`).
-/

set_option autoImplicit false

namespace HybridTM

/-! ## Sources -/

/-- What came about in the last region of a call. -/
structure AbortSources where
  /-- The abort that it got instead of a start. -/
  refused : Option HardwareAbort
  /-- What it read in the mode word. -/
  seen : Option ModeSnapshot
  /-- Whether an access failed. -/
  failed : Bool
  /-- The code with which its body last aborted it. -/
  code : Option UInt8
  /-- The error that its body returned. -/
  error : Option TxError

namespace AbortSources

/-- Nothing came about so far. -/
def empty : AbortSources := ⟨none, none, false, none, none⟩

/-- Whether the region found the runtime outside hardware mode. -/
def byMode (t : AbortSources) : Bool := t.seen.any (·.mode != .hw)

/-- Whether it did not start, for an abort that passes for a change of the mode. -/
def byFault (t : AbortSources) : Bool := t.refused.any (·.isModeChange)

/-- Whether its body made its abort pass for a change of the mode: with the code of the last abort,
or else, if no access had failed, with the error that it returned. -/
def byBody (t : AbortSources) : Bool :=
  match t.code with
  | some code => code == AbortCode.modeChanged
  | none => !t.failed && t.error.any (·.toAbort.isModeChange)

/-- Whether the abort of the region does not count. -/
def excuses (t : AbortSources) : Bool := t.byMode || t.byFault || t.byBody

/-- The sources after a step on a request, with what the body learned from it. -/
def after (t : AbortSources) (b : Backend) (s : Shared) (p : Phase) (q : Request) (reply : Reply) :
    AbortSources :=
  match p, q, reply with
  | .resting _, .call, _ | .dispatch _, .advance, _ => .empty
  | .hardware _ .starting, .advance, _ =>
      match b.enter.1 with
      | .error abort => { t with refused := some abort }
      | .ok _ => t
  | .checking _ r, .advance, _ =>
      match (b.read r s.memory Runtime.modeAddr fullMask).1 with
      | .ok word => { t with seen := some (.decode word) }
      | .error _ => { t with failed := true }
  | .hardware _ (.running _), .read _ _, .read (.error _) => { t with failed := true }
  | .hardware _ (.running _), .write _ _ _, .wrote (.error _) => { t with failed := true }
  | .hardware _ (.running _), .abort code, _ => { t with code := some code }
  | .hardware _ (.running _), .endBody (.error err), _ => { t with error := some err }
  | _, _, _ => t

end AbortSources

/-! ## What sources tell -/

@[simp] theorem HardwareAbort.isModeChange_explicit (code : UInt8) :
    (explicit code).isModeChange = (code == AbortCode.modeChanged) := rfl

/-- What an access that fails does to a region. -/
inductive Region.Failed (r : Region) : Region → Prop
  /-- It was doomed, and stays as it is. -/
  | again (doomed : r.doomed ≠ none) : r.Failed r
  /-- It is doomed now, but by no change of the mode. -/
  | first {r' : Region} {abort : HardwareAbort} (sound : r.doomed = none)
      (doomed : r'.doomed = some abort) (own : abort.isModeChange = false) : r.Failed r'

namespace Backend

variable {b : Backend} {r r' : Region} {m : Memory} {a : Addr} {mask : Mask} {abort : HardwareAbort}

/-- A read fails if the region is doomed already, or dooms it for a reason of its own. -/
theorem read_error (supported : b.isSupported = true)
    (h : b.read r m a mask = (.error abort, r')) : r.Failed r' := by
  cases b with
  | none => cases supported
  | emulated e =>
    simp only [read, Region.read] at h
    split at h
    · next earlier hdoomed =>
      obtain ⟨-, rfl⟩ := Prod.mk.inj h
      exact .again (by rw [hdoomed]; exact Option.some_ne_none _)
    · next hdoomed =>
      split at h
      · cases (Prod.mk.inj h).1
      · split at h
        · obtain ⟨-, rfl⟩ := Prod.mk.inj h
          exact .first hdoomed rfl rfl
        · split at h
          · obtain ⟨-, rfl⟩ := Prod.mk.inj h
            exact .first hdoomed rfl rfl
          · cases (Prod.mk.inj h).1

/-- So does a write. -/
theorem write_error (supported : b.isSupported = true) {v : Word}
    (h : b.write r a v mask = (.error abort, r')) : r.Failed r' := by
  cases b with
  | none => cases supported
  | emulated e =>
    simp only [write, Region.write] at h
    split at h
    · next earlier hdoomed =>
      obtain ⟨-, rfl⟩ := Prod.mk.inj h
      exact .again (by rw [hdoomed]; exact Option.some_ne_none _)
    · next hdoomed =>
      split at h
      · obtain ⟨-, rfl⟩ := Prod.mk.inj h
        exact .first hdoomed rfl rfl
      · cases (Prod.mk.inj h).1

/-- A commit fails for a reason of its own. -/
theorem commit_error (h : b.commit r m = .error abort) : abort.isModeChange = false := by
  cases b with
  | none =>
    obtain rfl := Except.error.inj h
    rfl
  | emulated e =>
    unfold commit Emulator.commit at h
    simp only at h
    split at h
    · cases h
    · obtain rfl := Except.error.inj h
      rfl

end Backend

/-- A region that read hardware mode agrees with its sources: it is doomed by the last code with
which its body aborted it, or else for a reason of its own if an access failed. -/
structure Region.Agrees (r : Region) (t : AbortSources) : Prop where
  /-- It started. -/
  started : t.refused = none
  /-- It read hardware mode. -/
  hardware : t.byMode = false
  /-- Its body has returned no error. -/
  error : t.error = none
  /-- Its doom has a cause. -/
  doomed : match t.code with
    | some code => r.doomed = some (.explicit code)
    | none =>
        if t.failed then ∃ own, r.doomed = some own ∧ own.isModeChange = false
        else r.doomed = none

/-- A phase agrees with the sources. -/
def Phase.Agrees (t : AbortSources) : Phase → Prop
  | .checking _ _ | .hardware _ .starting => t = .empty
  | .hardware _ (.running r) | .hardware _ (.returned r _) => r.Agrees t
  | .hardware _ (.hook _ r _) | .hardware _ (.committing r _) => r.Agrees t ∧ r.doomed = none
  | .hardware _ (.done (.error abort)) => abort.isModeChange = t.excuses
  | _ => True

namespace Region.Agrees

variable {r r' : Region} {t : AbortSources}

/-- A region that started is excused by its doom, or else by the error of its body. -/
theorem excuses_eq (A : r.Agrees t) (error : Option TxError) :
    ({ t with error } : AbortSources).excuses = match r.doomed with
      | some abort => abort.isModeChange
      | none => error.any (·.toAbort.isModeChange) := by
  have hmode : ({ t with error } : AbortSources).byMode = false := A.hardware
  have hfault : ({ t with error } : AbortSources).byFault = false := by
    rw [AbortSources.byFault, A.started]
    rfl
  rw [AbortSources.excuses, hmode, hfault, Bool.false_or, Bool.false_or, AbortSources.byBody]
  have doomed := A.doomed
  cases hcode : t.code with
  | some code =>
    rw [hcode] at doomed
    rw [show r.doomed = _ from doomed]
    rfl
  | none =>
    rw [hcode] at doomed
    cases hfailed : t.failed with
    | true =>
      rw [hfailed] at doomed
      obtain ⟨own, hdoomed, hown⟩ := doomed
      rw [hdoomed]
      exact hown.symm
    | false =>
      rw [hfailed] at doomed
      rw [show r.doomed = none from doomed]
      rfl

theorem of_doomed_eq (A : r.Agrees t) (h : r'.doomed = r.doomed) : r'.Agrees t :=
  ⟨A.started, A.hardware, A.error, by rw [h]; exact A.doomed⟩

/-- An access that fails leaves a region doomed. -/
theorem failed (A : r.Agrees t) (h : r.Failed r') : r'.Agrees { t with failed := true } := by
  refine ⟨A.started, A.hardware, A.error, ?_⟩
  have doomed := A.doomed
  cases hcode : t.code with
  | some code =>
    rw [hcode] at doomed
    cases h with
    | again => exact doomed
    | first sound => cases sound.symm.trans doomed
  | none =>
    rw [hcode] at doomed
    cases h with
    | again hne =>
      cases hfailed : t.failed with
      | true => simpa only [hfailed, if_true] using doomed
      | false =>
        rw [hfailed] at doomed
        exact absurd doomed hne
    | first sound hdoomed own => exact ⟨_, hdoomed, own⟩

/-- Its body can doom a region anew. -/
theorem doom (A : r.Agrees t) (code : UInt8) :
    (r.doom (.explicit code)).Agrees { t with code := some code } :=
  ⟨A.started, A.hardware, A.error, rfl⟩

/-- The abort of a region whose body fails is as its sources say. -/
theorem isModeChange_failure (A : r.Agrees t) (err : TxError) :
    (r.failure err).isModeChange = ({ t with error := some err } : AbortSources).excuses := by
  rw [A.excuses_eq, Region.failure]
  cases r.doomed <;> rfl

/-- So is that of a doomed region whose body returns a value. -/
theorem isModeChange_doomed (A : r.Agrees t) {abort : HardwareAbort}
    (h : r.doomed = some abort) : abort.isModeChange = t.excuses := by
  have excuses := A.excuses_eq t.error
  rw [h] at excuses
  exact excuses.symm

/-- There is no excuse for a region that could go to its commit. -/
theorem excuses_of_sound (A : r.Agrees t) (h : r.doomed = none) : t.excuses = false := by
  have excuses := A.excuses_eq t.error
  rw [h] at excuses
  rw [show t.excuses = _ from excuses, A.error]
  rfl

end Region.Agrees

/-! ## Steps -/

namespace Worker

variable {b b' : Backend} {s s' : Shared} {d d' : Bool} {p p' : Phase} {q : Request}
  {reply : Reply} {writes : List Access} {t : AbortSources}

/-- A region that is checked bears its sources out. -/
theorem agrees_checkMode {r : Runtime} {region : Region} (failures : UInt32)
    (supported : r.backend.isSupported = true) (sound : region.doomed = none) :
    (Phase.hardware failures (checkMode r region)).Agrees
      (AbortSources.empty.after r.backend r.engine.shared (.checking failures region) .advance
        .done) := by
  simp only [AbortSources.after, checkMode]
  rw [show r.engine.shared.memory = r.memory from rfl]
  rcases hread : r.backend.read region r.memory Runtime.modeAddr fullMask with
    ⟨abort | word, region'⟩
  · cases Backend.read_error supported hread with
    | again hne => exact absurd sound hne
    | first _ hdoomed own =>
      simp only [Phase.Agrees, Region.failure, hdoomed, Option.getD_some, own]
      rfl
  · simp only
    split
    · next hmode =>
      rcases Backend.read_cases hread with ⟨abort, herror, -⟩ | ⟨-, hdoomed, -⟩
      · cases herror
      · exact ⟨rfl, by simp [AbortSources.byMode, hmode], rfl, hdoomed⟩
    · next hmode =>
      simp only [Phase.Agrees, Region.failure, Region.abort, Region.doom, Option.getD_some]
      simp [AbortSources.excuses, AbortSources.byMode, hmode]

/-- Every turn but the check keeps that the phase agrees with what came about. -/
theorem Turn.agrees (T : Turn b s d p q reply d' p' s' b') (B : p.Buffers b.isSupported writes)
    (A : p.Agrees t) (past : ∀ failures region, p = .checking failures region → q ≠ .advance) :
    p'.Agrees (t.after b s p q reply) := by
  have destined {errand : Errand} {changed : Bool} {clock : Clock} {t : AbortSources} :
      (destination clock changed errand).Agrees t := by
    cases errand <;> cases changed <;> trivial
  cases T with
  | flush =>
    cases p with
    | hardware failures x => cases x <;> exact A
    | _ => exact A
  | toHardware failures outside => rfl
  | enter failures enters =>
    obtain rfl := A
    simp only [AbortSources.after, enters]
    rfl
  | check failures reads hardware => exact absurd rfl (past _ _ rfl)
  | refuse failures region abort => exact absurd rfl (past _ _ rfl)
  | execution failures turn after =>
    cases turn with
    | refused enters =>
      obtain rfl := A
      simp [Phase.Agrees, AbortSources.after, enters, AbortSources.excuses, AbortSources.byMode,
        AbortSources.byFault, AbortSources.byBody, AbortSources.empty]
    | entered enters => exact absurd rfl (after _)
    | doomed value doomed => exact A.isModeChange_doomed doomed
    | hook value name sound => exact ⟨A, sound⟩
    | ready value sound => exact ⟨A, sound⟩
    | resumed name region value => exact A
    | commit value commits => trivial
    | conflict value fails =>
      exact (Backend.commit_error fails).trans (A.1.excuses_of_sound A.2).symm
  | @readRegion failures region region' a mask result reads =>
    cases result with
    | error abort => exact Region.Agrees.failed A (Backend.read_error B.supported reads)
    | ok word =>
      rcases Backend.read_cases reads with ⟨abort, herror, -⟩ | ⟨before, after, -⟩
      · cases herror
      · exact Region.Agrees.of_doomed_eq A (after.trans before.symm)
  | @writeRegion failures region region' a v mask result writes =>
    cases result with
    | error abort => exact Region.Agrees.failed A (Backend.write_error B.supported writes)
    | ok value =>
      rcases Backend.write_cases writes with ⟨abort, herror, -⟩ | ⟨-, -, rfl⟩
      · cases herror
      · exact Region.Agrees.of_doomed_eq A rfl
  | abort failures region code => exact Region.Agrees.doom A code
  | endRegion failures region result =>
    cases result with
    | ok value => exact A
    | error err => exact Region.Agrees.isModeChange_failure A err
  | inapplicable change => exact destined
  | swap found mode => exact destined
  | giveUp lost persistent => exact destined
  | announce seen next => exact destined
  | commit place turn => cases place <;> trivial
  | panicSoftware place tx => cases place <;> trivial
  | _ => trivial

/-- So does every step. -/
theorem agrees_of_act {w w' : Worker} {r r' : Runtime} (h : w.act r q = some (reply, w', r'))
    (B : w.phase.Buffers r.backend.isSupported writes) (S : w.phase.Sound w.deferred)
    (A : w.phase.Agrees t) :
    w'.phase.Agrees (t.after r.backend r.engine.shared w.phase q reply) := by
  by_cases hchecking : q = .advance ∧ ∃ failures region, w.phase = .checking failures region
  · obtain ⟨rfl, failures, region, hphase⟩ := hchecking
    obtain ⟨⟨w₁, r₁⟩, hadvance, heq⟩ := Option.map_eq_some_iff.1 h
    obtain ⟨rfl, rfl, rfl⟩ : Reply.done = reply ∧ w₁ = w' ∧ r₁ = r' := by simpa using heq
    rw [advance, hphase] at hadvance
    obtain ⟨rfl, rfl⟩ := Prod.mk.inj (Option.some.inj hadvance)
    rw [hphase] at A B S ⊢
    obtain rfl : t = .empty := A
    exact agrees_checkMode failures B.1.supported S.2.2.2
  · exact (turn_of_act h).agrees B A fun failures region hphase hq =>
      hchecking ⟨hq, failures, region, hphase⟩

end Worker

/-- What follows a region that aborted: if it is excused its worker chooses a path as before, and
otherwise there is one more failure, or the last, and the heuristic takes note. -/
structure Worker.Settles (w w' : Worker) (limit failures : UInt32) (abort : HardwareAbort)
    (ticks : UInt64) (excused : Bool) : Prop where
  /-- The failures. -/
  phase : if excused then w'.phase = .dispatch failures
    else w'.phase = .dispatch (failures + 1) ∨ w'.phase = .dispatch limit ∨
      w'.phase = .switching (.register (failures + 1)) .load
  /-- The heuristic. -/
  heuristic : w'.heuristic =
    if excused then w.heuristic else (w.heuristic.recordHardwareAbort ticks abort).2

/-- The cost of an aborted region can be accounted for, and the worker goes by the code. -/
theorem Worker.exists_settles {w : Worker} (r : Runtime) {failures : UInt32} {abort : HardwareAbort}
    (h : w.phase = .hardware failures (.done (.error abort))) {ticks : UInt64}
    (room : w.heuristic.HasRoom ticks) :
    ∃ w' r', w.act r (.account ticks) = some (.done, w', r') ∧
      w.Settles w' r.config.maxRetries failures abort ticks abort.isModeChange := by
  obtain ⟨⟨w', r'⟩, haccount⟩ := exists_accountHardware room r failures (.error abort)
  refine ⟨w', r', ?_, ?_⟩
  · rw [act, if_pos room, account, h]
    simp only [haccount]
    rfl
  · rcases accountHardware_error haccount with
      ⟨mode, -, rfl⟩ | ⟨mode, sample, favors, -, -, -, rfl⟩
    · rw [mode]
      exact ⟨rfl, rfl⟩
    · rw [mode, config_observeSample]
      refine ⟨?_, rfl⟩
      simp only [goto, failureTarget, Bool.false_eq_true, if_false]
      split_ifs
      · exact Or.inr (Or.inr rfl)
      · exact Or.inr (Or.inl rfl)
      · exact Or.inl rfl

/-! ## Bodies that use the code -/

/-- A worker that chooses a path goes to hardware, and the body of a region will run. -/
structure Worker.Clear (w : Worker) (r : Runtime) (failures : UInt32) : Prop where
  /-- It runs no epoch. -/
  outside : w.deferred = false
  /-- The runtime is in hardware mode. -/
  hardware : r.mode.mode = .hw
  /-- There were few failures. -/
  few : failures < r.config.maxRetries
  /-- Regions start, and have room for a read. -/
  regions : ∃ e, r.backend = .emulated e ∧ e.faults.armed = false ∧ 0 < e.capacity

namespace Worker.Clear

variable {w : Worker} {r : Runtime} {failures : UInt32} {region : Region}

theorem act_dispatch (C : w.Clear r failures) (h : w.phase = .dispatch failures) :
    w.act r .advance = some (.done, w.goto (.hardware failures .starting), r) := by
  have hbelow : ¬ r.config.maxRetries ≤ failures := UInt32.not_le.2 C.few
  simp [act, advance, h, choosePath, C.outside, C.hardware, hbelow]

/-- A region starts. -/
theorem exists_enter (C : w.Clear r failures) (h : w.phase = .hardware failures .starting) :
    ∃ region r', w.act r .advance = some (.done, w.goto (.checking failures region), r') ∧
      region.reads = .empty ∧ region.writes = .empty ∧ region.doomed = none ∧
        w.Clear r' failures := by
  obtain ⟨e, hbackend, harmed, hcapacity⟩ := C.regions
  have henter : e.enter = (.ok ⟨e.version, .empty, .empty, none⟩,
      { e with started := e.started + 1 }) := by
    simp [Emulator.enter, Faults.takeForced, harmed]
  refine ⟨⟨e.version, .empty, .empty, none⟩,
    { r.withMemory r.memory with backend := .emulated { e with started := e.started + 1 } },
    ?_, rfl, rfl, rfl, ?_⟩
  · rw [act, advance, h]
    simp only [advanceHardware, Execution.advance, hbackend, Backend.enter, henter]
    rfl
  · exact ⟨C.outside, C.hardware, C.few, _, rfl, harmed, hcapacity⟩

/-- It reads hardware mode. -/
theorem exists_check (C : w.Clear r failures) (h : w.phase = .checking failures region)
    (reads : region.reads = .empty) (writes : region.writes = .empty)
    (sound : region.doomed = none) :
    ∃ region', w.act r .advance =
      some (.done, w.goto (.hardware failures (.running region')), r) := by
  obtain ⟨e, hbackend, -, hcapacity⟩ := C.regions
  have hroom : region.isFull e = false := by
    rw [Region.isFull, reads, writes]
    exact decide_eq_false (Nat.not_le.2 hcapacity)
  have hcurrent : ∃ region', region.revalidate? e r.memory = some region' := by
    refine ⟨_, Region.revalidate?_eq_some_iff.2 ⟨Or.inr ?_, rfl⟩⟩
    rw [reads]
    exact ReadLog.isConsistent_empty _
  obtain ⟨moved, hmoved⟩ := hcurrent
  have hread : ∃ word region', r.backend.read region r.memory Runtime.modeAddr fullMask =
      (.ok word, region') := by
    have huncovered : ¬ (0 : Mask) = fullMask := by decide
    simp only [hbackend, Backend.read, Region.read, sound, writes, WriteLog.lookup,
      WriteLog.find?_empty, huncovered, hroom, hmoved, Bool.false_eq_true, if_false]
    exact ⟨_, _, rfl⟩
  obtain ⟨word, region', hread⟩ := hread
  obtain ⟨rfl, -⟩ := Backend.read_of_writes_eq_empty writes hread
  have hmode : (ModeSnapshot.decode (r.memory.read Runtime.modeAddr)).mode = .hw := C.hardware
  exact ⟨region', by simp [act, advance, h, checkMode, hread, hmode]⟩

/-- A body that aborts its region with the code gets it as an error. -/
theorem act_abort (h : w.phase = .hardware failures (.running region)) (code : UInt8) :
    w.act r (.abort code) = some (.aborted (.hardware (.explicit code)),
      w.goto (.hardware failures (.running (region.doom (.explicit code)))), r) := by
  rw [act, abort, h]
  rfl

/-- The region aborts with it, whatever the body returns. -/
theorem act_endBody {abort : HardwareAbort} (h : w.phase = .hardware failures (.running region))
    (doomed : region.doomed = some abort) (err : TxError) :
    w.act r (.endBody (.error err)) =
      some (.done, w.goto (.hardware failures (.done (.error abort))), r) := by
  rw [act, endBody, h]
  simp only [Execution.endBody, Region.failure, doomed, Option.getD_some, Option.map_some]

/-- And its worker chooses a path as before. -/
theorem exists_account {abort : HardwareAbort} (C : w.Clear r failures)
    (h : w.phase = .hardware failures (.done (.error abort))) (mode : abort.isModeChange = true)
    {ticks : UInt64} (room : w.heuristic.HasRoom ticks) :
    ∃ w', w.act r (.account ticks) = some (.done, w', r) ∧
      w'.phase = .dispatch failures ∧ w'.heuristic = w.heuristic ∧ w'.Clear r failures := by
  refine ⟨(w.modifyTally (·.recordAbort (.hardware abort))).goto (.dispatch failures),
    ?_, rfl, rfl, C.outside, C.hardware, C.few, C.regions⟩
  rw [act, if_pos room, account, h]
  simp only [accountHardware, mode, if_true]
  rfl

theorem goto (C : w.Clear r failures) (p : Phase) : (w.goto p).Clear r failures :=
  ⟨C.outside, C.hardware, C.few, C.regions⟩

end Worker.Clear

end HybridTM
