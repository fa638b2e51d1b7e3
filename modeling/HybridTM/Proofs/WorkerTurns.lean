import HybridTM.Proofs.System
import HybridTM.Proofs.Turns

/-!
# Turns of workers

What a step of a worker can be: the phase and the flag it leads from and to, what the body learns
from it, and what it does to memory and clock (`Worker.Turn`). Counting, sampling and reporting
leave all of these alone. The list is complete (`Worker.turn_of_act`), so that nothing else has to
look into the functions of a worker.
-/

set_option autoImplicit false

namespace HybridTM

/-- The contents of the mode word. -/
def Shared.mode (s : Shared) : ModeSnapshot := .decode (s.memory.read Runtime.modeAddr)

/-- Memory and clock after the mode word was replaced. -/
def Shared.setMode (s : Shared) (next : ModeSnapshot) : Shared :=
  { s with memory := s.memory.write Runtime.modeAddr next.encode }

/-- The backend after a swap of the mode word. -/
def exchanged (b : Backend) (s : Shared) (seen next : ModeSnapshot) : Backend :=
  (b.compareExchange s.memory Runtime.modeAddr seen.encode next.encode).2.1

namespace Worker

/-- Where an errand leads, depending on whether it changed the mode word. -/
def destination (clock : Clock) (changed : Bool) : Errand → Phase
  | .register failures =>
      if changed then .switching (.flip failures) .load else .dispatch failures
  | .flip failures => .dispatch failures
  | .join failures =>
      if changed then .software .joined (.new clock) else .dispatch failures
  | .lock failures =>
      if changed then .software .lock (.new clock) else .dispatch failures
  | .leave ending | .endEpoch ending | .unlock ending => .resting (some ending)

/-- Whether an errand begins an epoch of the worker's own. -/
def beginsEpoch : Errand → Bool
  | .flip _ => true
  | _ => false

/-- Where a software call leads once it has committed. -/
def epilogue (value : Word) : Place → Phase
  | .epoch => .measuring value
  | .joined => .switching (.leave (.returned value)) .load
  | .lock => unlocking (.returned value)

/-- Where a panic in a software call leads. -/
def unwinding : Place → Phase
  | .epoch => .resting (some .unwound)
  | .joined => .switching (.leave .unwound) .load
  | .lock => unlocking .unwound

/-- The turns of a worker over a backend, memory and clock: from a phase, with or without an epoch
of its own, on a request, to a reply, a phase, an epoch, a new memory and clock and a new
backend. -/
inductive Turn (b : Backend) (s : Shared) (deferred : Bool) :
    Phase → Request → Reply → Bool → Phase → Shared → Backend → Prop
  /-- A call begins. -/
  | call {last : Option Ending} (alive : last ≠ some .retired) :
      Turn b s deferred (.resting last) .call .done deferred (.dispatch 0) s b
  /-- A worker without an epoch retires. -/
  | retire {last : Option Ending} (outside : deferred = false) :
      Turn b s deferred (.resting last) .retire .done deferred (.resting (some .retired)) s b
  /-- A worker with an epoch ends it first. -/
  | retireEpoch {last : Option Ending} (inside : deferred = true) :
      Turn b s deferred (.resting last) .retire .done false
        (.switching (.endEpoch .retired) .load) s b
  /-- The tally is moved. -/
  | flush (phase : Phase) : Turn b s deferred phase .flush .done deferred phase s b
  /-- A call goes to the worker's own epoch. -/
  | toEpoch (failures : UInt32) (inside : deferred = true) :
      Turn b s deferred (.dispatch failures) .advance .done deferred
        (.software .epoch (.new s.clock)) s b
  /-- It is about to join an epoch. -/
  | toJoin (failures : UInt32) (outside : deferred = false) {next : ModeSnapshot}
      (change : (Errand.join failures).change? s.mode = some next) :
      Turn b s deferred (.dispatch failures) .advance .done deferred
        (.switching (.join failures) (.swap s.mode next)) s b
  /-- It is about to take the global lock. -/
  | toLock (failures : UInt32) (outside : deferred = false) :
      Turn b s deferred (.dispatch failures) .advance .done deferred
        (.switching (.lock failures) .load) s b
  /-- It tries hardware. -/
  | toHardware (failures : UInt32) (outside : deferred = false) :
      Turn b s deferred (.dispatch failures) .advance .done deferred
        (.hardware failures .starting) s b
  /-- A region starts. -/
  | enter (failures : UInt32) {r : Region} {b' : Backend} (enters : b.enter = (.ok r, b')) :
      Turn b s deferred (.hardware failures .starting) .advance .done deferred
        (.checking failures r) s b'
  /-- It reads hardware mode. -/
  | check (failures : UInt32) {r r' : Region} {word : Word}
      (reads : b.read r s.memory Runtime.modeAddr fullMask = (.ok word, r'))
      (hardware : (ModeSnapshot.decode word).mode = .hw) :
      Turn b s deferred (.checking failures r) .advance .done deferred
        (.hardware failures (.running r')) s b
  /-- It reads another mode, or nothing. -/
  | refuse (failures : UInt32) (r : Region) (abort : HardwareAbort) :
      Turn b s deferred (.checking failures r) .advance .done deferred
        (.hardware failures (.done (.error abort))) s b
  /-- The execution makes another step of its own. -/
  | execution (failures : UInt32) {x x' : Execution} {b' : Backend} {m : Memory}
      (turn : Execution.Turn b s.memory x x' b' m) (past : ∀ r, x' ≠ .running r) :
      Turn b s deferred (.hardware failures x) .advance .done deferred (.hardware failures x')
        { s with memory := m } b'
  /-- The cost of a committed region is accounted for. -/
  | settle (failures : UInt32) (value : Word) (ticks : UInt64) :
      Turn b s deferred (.hardware failures (.done (.ok value))) (.account ticks) .done deferred
        (.resting (some (.returned value))) s b
  /-- After an aborted region the path is chosen again. -/
  | retry (failures failures' : UInt32) (abort : HardwareAbort) (ticks : UInt64) :
      Turn b s deferred (.hardware failures (.done (.error abort))) (.account ticks) .done deferred
        (.dispatch failures') s b
  /-- After an aborted region the worker turns to software. -/
  | toSoftware (failures failures' : UInt32) (abort : HardwareAbort) (ticks : UInt64) :
      Turn b s deferred (.hardware failures (.done (.error abort))) (.account ticks) .done deferred
        (.switching (.register failures') .load) s b
  /-- An errand applies to the word that was loaded. -/
  | load {errand : Errand} {next : ModeSnapshot} (change : errand.change? s.mode = some next) :
      Turn b s deferred (.switching errand .load) .advance .done deferred
        (.switching errand (.swap s.mode next)) s b
  /-- It does not apply. -/
  | inapplicable {errand : Errand} (change : errand.change? s.mode = none) :
      Turn b s deferred (.switching errand .load) .advance .done (deferred || beginsEpoch errand)
        (destination s.clock false errand) s b
  /-- The word is swapped and the mode stays. -/
  | swap {errand : Errand} {seen next : ModeSnapshot}
      (found : s.memory.read Runtime.modeAddr = seen.encode) (mode : seen.mode = next.mode) :
      Turn b s deferred (.switching errand (.swap seen next)) .advance .done
        (deferred || beginsEpoch errand) (destination s.clock true errand) (s.setMode next)
        (exchanged b s seen next)
  /-- The word is swapped and the mode changes. -/
  | swapMode {errand : Errand} {seen next : ModeSnapshot}
      (found : s.memory.read Runtime.modeAddr = seen.encode) (mode : seen.mode ≠ next.mode) :
      Turn b s deferred (.switching errand (.swap seen next)) .advance .done deferred
        (.switching errand (.announce seen next)) (s.setMode next) (exchanged b s seen next)
  /-- Another agent was faster and the errand starts over. -/
  | reload {errand : Errand} {seen next : ModeSnapshot}
      (lost : s.memory.read Runtime.modeAddr ≠ seen.encode)
      (persistent : errand.isPersistent = true) :
      Turn b s deferred (.switching errand (.swap seen next)) .advance .done deferred
        (.switching errand .load) s (exchanged b s seen next)
  /-- Another agent was faster and the errand gives up. -/
  | giveUp {errand : Errand} {seen next : ModeSnapshot}
      (lost : s.memory.read Runtime.modeAddr ≠ seen.encode)
      (persistent : errand.isPersistent = false) :
      Turn b s deferred (.switching errand (.swap seen next)) .advance .done
        (deferred || beginsEpoch errand) (destination s.clock false errand) s
        (exchanged b s seen next)
  /-- The new mode is shown. -/
  | announce {errand : Errand} (seen next : ModeSnapshot) :
      Turn b s deferred (.switching errand (.announce seen next)) .advance .done
        (deferred || beginsEpoch errand) (destination s.clock true errand) s b
  /-- A software call goes on. -/
  | software (place : Place) {call call' : Call} {s' : Shared}
      (turn : Call.Turn call (place = .lock) s (.going call') s') :
      Turn b s deferred (.software place call) .advance .done deferred (.software place call') s' b
  /-- A software call commits. -/
  | commit (place : Place) {call : Call} {value : Word} {s' : Shared}
      (turn : Call.Turn call (place = .lock) s (.committed value) s') :
      Turn b s deferred (.software place call) .advance .done deferred (epilogue value place) s' b
  /-- The worker's own epoch goes on after a commit. -/
  | stay (value : Word) (ticks : UInt64) :
      Turn b s deferred (.measuring value) (.account ticks) .done deferred
        (.resting (some (.returned value))) s b
  /-- It ends. -/
  | goBack (value : Word) (ticks : UInt64) :
      Turn b s deferred (.measuring value) (.account ticks) .done false
        (.switching (.endEpoch (.returned value)) .load) s b
  /-- The body of a region reads. -/
  | readRegion (failures : UInt32) {r r' : Region} {a : Addr} {mask : Mask}
      {result : Except HardwareAbort Word} (reads : b.read r s.memory a mask = (result, r')) :
      Turn b s deferred (.hardware failures (.running r)) (.read a mask)
        (.read (result.mapError .hardware)) deferred (.hardware failures (.running r')) s b
  /-- The body of a software call reads. -/
  | readSoftware (place : Place) {tx tx' : Transaction} {a : Addr} {mask : Mask}
      {result : Except TxError Word} (reads : tx.read s a mask = some (result, tx')) :
      Turn b s deferred (.software place ⟨tx, .running⟩) (.read a mask) (.read result) deferred
        (.software place ⟨tx', .running⟩) s b
  /-- The body of a region writes. -/
  | writeRegion (failures : UInt32) {r r' : Region} {a : Addr} {v : Word} {mask : Mask}
      {result : Except HardwareAbort Unit} (writes : b.write r a v mask = (result, r')) :
      Turn b s deferred (.hardware failures (.running r)) (.write a v mask)
        (.wrote (result.mapError .hardware)) deferred (.hardware failures (.running r')) s b
  /-- The body of a software call writes. -/
  | writeSoftware (place : Place) (tx : Transaction) (a : Addr) (v : Word) (mask : Mask) :
      Turn b s deferred (.software place ⟨tx, .running⟩) (.write a v mask) (.wrote (.ok ()))
        deferred (.software place ⟨tx.write a v mask, .running⟩) s b
  /-- The body aborts its region. -/
  | abort (failures : UInt32) (r : Region) (code : UInt8) :
      Turn b s deferred (.hardware failures (.running r)) (.abort code)
        (.aborted (.hardware (.explicit code))) deferred
        (.hardware failures (.running (r.doom (.explicit code)))) s b
  /-- The body of a region returns. -/
  | endRegion (failures : UInt32) (r : Region) (result : Except TxError Word) :
      Turn b s deferred (.hardware failures (.running r)) (.endBody result) .done deferred
        (.hardware failures (Execution.endBody r result)) s b
  /-- The body of a software call returns. -/
  | endSoftware (place : Place) (tx : Transaction) (result : Except TxError Word) :
      Turn b s deferred (.software place ⟨tx, .running⟩) (.endBody result) .done deferred
        (.software place (Call.endBody ⟨tx, .running⟩ result)) s b
  /-- The body of a region panics. -/
  | panicRegion (failures : UInt32) (r : Region) :
      Turn b s deferred (.hardware failures (.running r)) .panic .done deferred
        (.resting (some .unwound)) s b
  /-- The body of a software call panics. -/
  | panicSoftware (place : Place) (tx : Transaction) :
      Turn b s deferred (.software place ⟨tx, .running⟩) .panic .done deferred (unwinding place)
        { s with clock := tx.released s.clock } b

/-! ## Completeness -/

variable {w w' : Worker} {r r' : Runtime}

theorem flush_spec (h : w.flush r = (w', r')) :
    w'.phase = w.phase ∧ w'.deferred = w.deferred ∧ r'.engine = r.engine ∧
      r'.backend = r.backend := by
  obtain ⟨rfl, rfl⟩ := Prod.mk.inj h
  exact ⟨rfl, rfl, rfl, rfl⟩

theorem rest_spec {ending : Ending} (h : w.rest r ending = (w', r')) :
    w'.phase = .resting (some ending) ∧ w'.deferred = w.deferred ∧
      r'.engine.shared = r.engine.shared ∧ r'.backend = r.backend := by
  unfold rest at h
  split at h <;> obtain ⟨rfl, rfl⟩ := Prod.mk.inj h <;> exact ⟨rfl, rfl, rfl, rfl⟩

theorem afterErrand_spec {errand : Errand} {change : Option (ModeSnapshot × ModeSnapshot)}
    (h : w.afterErrand r errand change = .ok (w', r')) :
    w'.phase = destination r.engine.clock change.isSome errand ∧
      w'.deferred = (w.deferred || beginsEpoch errand) ∧
      r'.engine.shared = r.engine.shared ∧ r'.backend = r.backend := by
  cases errand with
  | register failures =>
    cases change <;> obtain ⟨rfl, rfl⟩ := Prod.mk.inj (Except.ok.inj h) <;>
      exact ⟨rfl, (Bool.or_false _).symm, rfl, rfl⟩
  | flip failures =>
    obtain ⟨heuristic, -, heq⟩ := exists_of_map_eq_ok h
    obtain ⟨rfl, rfl⟩ := Prod.mk.inj heq
    exact ⟨rfl, (Bool.or_true _).symm, rfl, rfl⟩
  | join failures =>
    cases change <;> obtain ⟨rfl, rfl⟩ := Prod.mk.inj (Except.ok.inj h) <;>
      exact ⟨rfl, (Bool.or_false _).symm, rfl, rfl⟩
  | lock failures =>
    cases change <;> obtain ⟨rfl, rfl⟩ := Prod.mk.inj (Except.ok.inj h) <;>
      exact ⟨rfl, (Bool.or_false _).symm, rfl, rfl⟩
  | leave ending =>
    obtain ⟨hphase, hdeferred, hkept⟩ := rest_spec (Except.ok.inj h)
    refine ⟨hphase, ?_, hkept⟩
    simp only [hdeferred, beginsEpoch, Bool.or_false]
    split <;> rfl
  | endEpoch ending =>
    obtain ⟨hphase, hdeferred, hkept⟩ := rest_spec (Except.ok.inj h)
    refine ⟨hphase, ?_, hkept⟩
    simp only [hdeferred, beginsEpoch, Bool.or_false]
    split <;> rfl
  | unlock ending =>
    obtain ⟨hphase, hdeferred, hkept⟩ := rest_spec (Except.ok.inj h)
    exact ⟨hphase, by simp only [hdeferred, beginsEpoch, Bool.or_false], hkept⟩

end Worker

/-- A swap of the mode word finds what it expects and replaces it, or finds something else and
changes nothing. -/
theorem Runtime.swapMode_cases {r r' : Runtime} {seen next : ModeSnapshot} {swapped : Bool}
    (h : r.swapMode seen next = (swapped, r')) :
    (swapped = true ∧ r.memory.read modeAddr = seen.encode ∧
        r'.engine.shared = r.engine.shared.setMode next ∧
        r'.backend = exchanged r.backend r.engine.shared seen next) ∨
      (swapped = false ∧ r.memory.read modeAddr ≠ seen.encode ∧
        r'.engine.shared = r.engine.shared ∧
        r'.backend = exchanged r.backend r.engine.shared seen next) := by
  -- Both backends compare and swap alike; only what they count differs.
  have exchange : r.swapMode seen next =
      (if r.memory.read modeAddr = seen.encode then true else false,
        { r.withMemory (if r.memory.read modeAddr = seen.encode then
            r.memory.write modeAddr next.encode else r.memory) with
          backend :=
            (r.backend.compareExchange r.memory modeAddr seen.encode next.encode).2.1 }) := by
    unfold swapMode compareExchange Backend.compareExchange Emulator.compareExchange
      Memory.compareExchange
    by_cases hfound : r.memory.read modeAddr = seen.encode <;> cases r.backend <;>
      simp only [hfound, if_true, if_false]
  rw [exchange] at h
  obtain ⟨rfl, rfl⟩ := Prod.mk.inj h
  by_cases hfound : r.memory.read modeAddr = seen.encode
  · refine Or.inl ⟨if_pos hfound, hfound, ?_, rfl⟩
    rw [if_pos hfound]
    rfl
  · refine Or.inr ⟨if_neg hfound, hfound, ?_, rfl⟩
    rw [if_neg hfound]
    rfl

namespace Worker

variable {w w' : Worker} {r r' : Runtime}

theorem turn_of_choosePath {failures : UInt32} (h : w.choosePath r failures = some w') :
    Turn r.backend r.engine.shared w.deferred (.dispatch failures) .advance .done w'.deferred
      w'.phase r.engine.shared r.backend := by
  unfold choosePath at h
  split at h
  · next hdeferred =>
    obtain rfl := Option.some.inj h
    exact .toEpoch failures hdeferred
  · next hdeferred =>
    rw [Bool.not_eq_true] at hdeferred
    simp only at h
    split at h
    · cases h
    · obtain ⟨next, hnext, rfl⟩ := Option.map_eq_some_iff.1 h
      exact .toJoin failures hdeferred hnext
    · split at h
      · obtain ⟨_, -, rfl⟩ := Option.map_eq_some_iff.1 h
        exact .toLock failures hdeferred
      · obtain rfl := Option.some.inj h
        exact .toHardware failures hdeferred

theorem turn_of_checkMode (deferred : Bool) (failures : UInt32) (region : Region) :
    Turn r.backend r.engine.shared deferred (.checking failures region) .advance .done deferred
      (.hardware failures (checkMode r region)) r.engine.shared r.backend := by
  unfold checkMode
  split
  · exact .refuse failures region _
  · next word region' hread =>
    split
    · next hmode => exact .check failures hread hmode
    · exact .refuse failures region _

theorem turn_of_advanceHardware {failures : UInt32} {x : Execution}
    (h : w.advanceHardware r failures x = some (w', r')) :
    Turn r.backend r.engine.shared w.deferred (.hardware failures x) .advance .done w'.deferred
      w'.phase r'.engine.shared r'.backend := by
  obtain ⟨⟨x', b', m⟩, hx, heq⟩ := Option.map_eq_some_iff.1 h
  have turn := Execution.turn_of_advance hx
  simp only at heq
  split at heq
  · next region =>
    obtain ⟨rfl, rfl⟩ := Prod.mk.inj heq
    cases turn with
    | entered henter => exact .enter failures henter
  · next hother =>
    obtain ⟨rfl, rfl⟩ := Prod.mk.inj heq
    apply Turn.execution failures turn
    intro region hx'
    -- Only the start of an execution leads to a running body.
    subst hx'
    cases turn with
    | entered henter => exact hother region rfl rfl

theorem turn_of_advanceErrand {errand : Errand} {stage : SwapStage}
    (h : w.advanceErrand r errand stage = .ok (w', r')) :
    Turn r.backend r.engine.shared w.deferred (.switching errand stage) .advance .done w'.deferred
      w'.phase r'.engine.shared r'.backend := by
  cases stage with
  | load =>
    unfold advanceErrand at h
    simp only at h
    split at h
    · next next hchange =>
      obtain ⟨rfl, rfl⟩ := Prod.mk.inj (Except.ok.inj h)
      exact .load hchange
    · next hchange =>
      obtain ⟨hphase, hdeferred, hshared, hbackend⟩ := afterErrand_spec h
      rw [hphase, hdeferred, hshared, hbackend]
      exact .inapplicable hchange
  | swap seen next =>
    rcases hswap : r.swapMode seen next with ⟨swapped, r₁⟩
    simp only [advanceErrand, hswap] at h
    rcases Runtime.swapMode_cases hswap with ⟨rfl, hfound, hr₁, hb₁⟩ | ⟨rfl, hlost, hr₁, hb₁⟩
    · rw [if_pos rfl] at h
      split at h
      · next hmode =>
        obtain ⟨hphase, hdeferred, hshared, hbackend⟩ := afterErrand_spec h
        have hclock : r₁.engine.clock = r.engine.shared.clock := by
          rw [Engine.clock, hr₁, Shared.setMode]
        rw [hphase, hdeferred, hshared, hbackend, hclock, hr₁, hb₁]
        exact .swap hfound hmode
      · next hmode =>
        obtain ⟨rfl, rfl⟩ := Prod.mk.inj (Except.ok.inj h)
        rw [hr₁, hb₁]
        exact .swapMode hfound hmode
    · rw [if_neg Bool.false_ne_true] at h
      split at h
      · next hpersistent =>
        obtain ⟨rfl, rfl⟩ := Prod.mk.inj (Except.ok.inj h)
        rw [hr₁, hb₁]
        exact .reload hlost hpersistent
      · next hpersistent =>
        rw [Bool.not_eq_true] at hpersistent
        obtain ⟨hphase, hdeferred, hshared, hbackend⟩ := afterErrand_spec h
        have hclock : r₁.engine.clock = r.engine.shared.clock := by rw [Engine.clock, hr₁]
        rw [hphase, hdeferred, hshared, hbackend, hclock, hr₁, hb₁]
        exact .giveUp hlost hpersistent
  | announce seen next =>
    obtain ⟨hphase, hdeferred, hshared, hbackend⟩ := afterErrand_spec h
    rw [hphase, hdeferred, hshared, hbackend]
    exact .announce seen next

theorem turn_of_advanceSoftware {place : Place} {call : Call}
    (h : w.advanceSoftware r place call = some (w', r')) :
    Turn r.backend r.engine.shared w.deferred (.software place call) .advance .done w'.deferred
      w'.phase r'.engine.shared r'.backend := by
  obtain ⟨⟨progress, context, engine⟩, hcall, heq⟩ := Option.map_eq_some_iff.1 h
  have turn := Call.turn_of_advance hcall
  cases progress with
  | going call' =>
    obtain ⟨rfl, rfl⟩ := Prod.mk.inj heq
    exact .software place turn
  | committed value =>
    obtain ⟨rfl, rfl⟩ := Prod.mk.inj heq
    have hphase : ({ w with context }.afterSoftware place value).phase = epilogue value place := by
      cases place <;> rfl
    have hdeferred : ({ w with context }.afterSoftware place value).deferred = w.deferred := by
      cases place <;> rfl
    rw [hphase, hdeferred]
    exact .commit place turn

theorem observeSample_spec (r : Runtime) (sample : Option HardwareSample) :
    (observeSample r sample).engine = r.engine ∧
      (observeSample r sample).backend = r.backend := by
  unfold observeSample
  split
  · split <;> exact ⟨rfl, rfl⟩
  · exact ⟨rfl, rfl⟩

/-- A committed region is counted, manager and heuristic hear of it, and its call returns. -/
theorem accountHardware_ok {failures : UInt32} {value : Word} {ticks : UInt64}
    (h : w.accountHardware r failures (.ok value) ticks = .ok (w', r')) :
    ∃ sample, (w.heuristic.recordHardwareCommit ticks).1 = .ok sample ∧
      w' = { w.countHardwareCommit with
        context := (w.countHardwareCommit.context.notifyCommit r.engine.token).1
        heuristic := (w.heuristic.recordHardwareCommit ticks).2 }.goto
          (.resting (some (.returned value))) ∧
      r' = observeSample { r with engine := { r.engine with
        token := (w.countHardwareCommit.context.notifyCommit r.engine.token).2 } } sample := by
  obtain ⟨sample, hsample, heq⟩ := exists_of_map_eq_ok h
  obtain ⟨rfl, rfl⟩ := Prod.mk.inj heq
  exact ⟨sample, hsample, rfl, rfl⟩

/-- An abort is counted. If it is no change of the mode, the heuristic hears of it and says where it
leads. -/
theorem accountHardware_error {failures : UInt32} {abort : HardwareAbort} {ticks : UInt64}
    (h : w.accountHardware r failures (.error abort) ticks = .ok (w', r')) :
    (abort.isModeChange = true ∧ r' = r ∧
        w' = (w.modifyTally (·.recordAbort (.hardware abort))).goto (.dispatch failures)) ∨
      (abort.isModeChange = false ∧ ∃ sample favors,
        (w.heuristic.recordHardwareAbort ticks abort).1 = .ok sample ∧
        (w.heuristic.recordHardwareAbort ticks abort).2.favorsSoftware abort = .ok favors ∧
        r' = observeSample r sample ∧
        w' = { w.modifyTally (·.recordAbort (.hardware abort)) with
          heuristic := (w.heuristic.recordHardwareAbort ticks abort).2 }.goto
            (failureTarget favors (observeSample r sample).config.maxRetries (failures + 1)
              abort)) := by
  unfold accountHardware at h
  simp only at h
  split at h
  · next mode =>
    obtain ⟨rfl, rfl⟩ := Prod.mk.inj (Except.ok.inj h)
    exact .inl ⟨mode, rfl, rfl⟩
  · next mode =>
    rcases hsample : (w.heuristic.recordHardwareAbort ticks abort).1 with overflow | sample
    · rw [modifyTally, hsample] at h
      cases h
    · rw [modifyTally, hsample] at h
      obtain ⟨w₁, hfailure, heq⟩ := exists_of_map_eq_ok h
      obtain ⟨rfl, rfl⟩ := Prod.mk.inj heq
      obtain ⟨favors, hfavors, rfl⟩ := exists_of_map_eq_ok hfailure
      exact .inr ⟨Bool.not_eq_true _ ▸ mode, sample, favors, rfl, hfavors, rfl, rfl⟩

theorem turn_of_accountHardware {failures : UInt32} {result : Except HardwareAbort Word}
    {ticks : UInt64} (h : w.accountHardware r failures result ticks = .ok (w', r')) :
    Turn r.backend r.engine.shared w.deferred (.hardware failures (.done result)) (.account ticks)
      .done w'.deferred w'.phase r'.engine.shared r'.backend := by
  cases result with
  | ok value =>
    obtain ⟨sample, -, rfl, rfl⟩ := accountHardware_ok h
    rw [(observeSample_spec _ _).1, (observeSample_spec _ _).2]
    exact .settle failures value ticks
  | error abort =>
    rcases accountHardware_error h with ⟨-, rfl, rfl⟩ | ⟨-, sample, favors, -, -, rfl, rfl⟩
    · exact .retry failures failures abort ticks
    · rw [(observeSample_spec _ _).1, (observeSample_spec _ _).2]
      -- The heuristic chooses between two destinations, one of them with other failures.
      simp only [goto, failureTarget]
      split
      · exact .toSoftware failures _ abort ticks
      · split
        · exact .retry failures _ abort ticks
        · exact .retry failures _ abort ticks

theorem turn_of_accountSoftware {value : Word} {ticks : UInt64}
    (h : w.accountSoftware r value ticks = (w', r')) :
    Turn r.backend r.engine.shared w.deferred (.measuring value) (.account ticks) .done
      w'.deferred w'.phase r'.engine.shared r'.backend := by
  rcases hrecord : w.heuristic.recordSoftwareCommit ticks with ⟨verdict, heuristic⟩
  simp only [accountSoftware, hrecord] at h
  -- Whatever the verdict is, the runtime only takes note of a cost.
  have hkept : r'.engine.shared = r.engine.shared ∧ r'.backend = r.backend := by
    cases hmean : heuristic.lastSoftwareMean <;> rw [hmean] at h <;> cases verdict <;>
      obtain ⟨-, rfl⟩ := Prod.mk.inj h <;> exact ⟨rfl, rfl⟩
  rw [hkept.1, hkept.2]
  cases verdict <;> obtain ⟨rfl, -⟩ := Prod.mk.inj h
  · exact .stay value ticks
  · exact .stay value ticks
  · exact .goBack value ticks

theorem turn_of_advance (h : w.advance r = some (.ok (w', r'))) :
    Turn r.backend r.engine.shared w.deferred w.phase .advance .done w'.deferred w'.phase
      r'.engine.shared r'.backend := by
  unfold advance at h
  split at h
  · cases h
  · cases h
  · next failures hphase =>
    obtain ⟨w₁, hchoose, heq⟩ := Option.map_eq_some_iff.1 h
    obtain ⟨rfl, rfl⟩ := Prod.mk.inj (Except.ok.inj heq)
    rw [hphase]
    exact turn_of_choosePath hchoose
  · next failures region hphase =>
    obtain ⟨rfl, rfl⟩ := Prod.mk.inj (Except.ok.inj (Option.some.inj h))
    rw [hphase]
    exact turn_of_checkMode w.deferred failures region
  · next failures x hphase =>
    obtain ⟨_, hadvance, heq⟩ := Option.map_eq_some_iff.1 h
    obtain rfl := Except.ok.inj heq
    rw [hphase]
    exact turn_of_advanceHardware hadvance
  · next errand stage hphase =>
    rw [hphase]
    exact turn_of_advanceErrand (Option.some.inj h)
  · next place call hphase =>
    obtain ⟨_, hadvance, heq⟩ := Option.map_eq_some_iff.1 h
    obtain rfl := Except.ok.inj heq
    rw [hphase]
    exact turn_of_advanceSoftware hadvance

theorem turn_of_account {ticks : UInt64} (h : w.account r ticks = some (.ok (w', r'))) :
    Turn r.backend r.engine.shared w.deferred w.phase (.account ticks) .done w'.deferred w'.phase
      r'.engine.shared r'.backend := by
  unfold account at h
  split at h
  · next failures result hphase =>
    rw [hphase]
    exact turn_of_accountHardware (Option.some.inj h)
  · next value hphase =>
    rw [hphase]
    exact turn_of_accountSoftware (Except.ok.inj (Option.some.inj h))
  · cases h

theorem turn_of_retire (h : w.retire r = some (w', r')) :
    Turn r.backend r.engine.shared w.deferred w.phase .retire .done w'.deferred w'.phase
      r'.engine.shared r'.backend := by
  unfold retire at h
  split at h
  · cases h
  · next last hphase hlast =>
    rw [hlast]
    split at h
    · next hdeferred =>
      obtain ⟨rfl, rfl⟩ := Prod.mk.inj (Option.some.inj h)
      exact .retireEpoch hdeferred
    · next hdeferred =>
      rw [Bool.not_eq_true] at hdeferred
      obtain ⟨hphase, hdeferred', hshared, hbackend⟩ := rest_spec (Option.some.inj h)
      rw [hphase, hdeferred', hshared, hbackend]
      exact .retire hdeferred
  · cases h

theorem turn_of_panic (h : w.panic r = some (w', r')) :
    Turn r.backend r.engine.shared w.deferred w.phase .panic .done w'.deferred w'.phase
      r'.engine.shared r'.backend := by
  unfold panic at h
  split at h
  · next failures region hphase =>
    obtain ⟨rfl, rfl⟩ := Prod.mk.inj (Option.some.inj h)
    rw [hphase]
    exact .panicRegion failures region
  · next place tx hphase =>
    rw [hphase]
    cases place <;> obtain ⟨rfl, rfl⟩ := Prod.mk.inj (Option.some.inj h)
    · exact .panicSoftware .epoch tx
    · exact .panicSoftware .joined tx
    · exact .panicSoftware .lock tx
  · cases h

/-- Every step of a worker is one of its turns. -/
theorem turn_of_act {q : Request} {reply : Reply} (h : w.act r q = some (reply, w', r')) :
    Turn r.backend r.engine.shared w.deferred w.phase q reply w'.deferred w'.phase
      r'.engine.shared r'.backend := by
  cases q with
  | call =>
    obtain ⟨w₁, hcall, heq⟩ := Option.map_eq_some_iff.1 h
    obtain ⟨rfl, rfl, rfl⟩ : Reply.done = reply ∧ w₁ = w' ∧ r = r' := by simpa using heq
    unfold call at hcall
    split at hcall
    · cases hcall
    · next last hretired hphase =>
      obtain rfl := Option.some.inj hcall
      rw [hphase]
      exact .call hretired
    · cases hcall
  | retire =>
    obtain ⟨rfl, hretire⟩ := eq_some_of_done h
    exact turn_of_retire hretire
  | flush =>
    obtain ⟨rfl, heq⟩ := Prod.mk.inj (Option.some.inj h)
    obtain ⟨hphase, hdeferred, hengine, hbackend⟩ := flush_spec heq
    rw [hphase, hdeferred, hengine, hbackend]
    exact .flush w.phase
  | advance =>
    obtain ⟨rfl, hadvance⟩ := advance_of_act h
    exact turn_of_advance hadvance
  | account ticks =>
    obtain ⟨-, rfl, haccount⟩ := account_of_act h
    exact turn_of_account haccount
  | read a mask =>
    obtain ⟨⟨result, w₁⟩, hread, heq⟩ := Option.map_eq_some_iff.1 h
    obtain ⟨rfl, rfl, rfl⟩ : Reply.read result = reply ∧ w₁ = w' ∧ r = r' := by simpa using heq
    unfold read at hread
    split at hread
    · next failures region hphase =>
      obtain ⟨rfl, rfl⟩ := Prod.mk.inj (Option.some.inj hread)
      rw [hphase]
      exact .readRegion failures rfl
    · next place tx hphase =>
      obtain ⟨⟨result', call⟩, hcall, heq⟩ := Option.map_eq_some_iff.1 hread
      obtain ⟨rfl, rfl⟩ := Prod.mk.inj heq
      obtain ⟨⟨result'', tx'⟩, htx, heq⟩ := Option.map_eq_some_iff.1 hcall
      obtain ⟨rfl, rfl⟩ := Prod.mk.inj heq
      rw [hphase]
      exact .readSoftware place htx
    · cases hread
  | write a v mask =>
    obtain ⟨⟨result, w₁⟩, hwrite, heq⟩ := Option.map_eq_some_iff.1 h
    obtain ⟨rfl, rfl, rfl⟩ : Reply.wrote result = reply ∧ w₁ = w' ∧ r = r' := by simpa using heq
    unfold write at hwrite
    split at hwrite
    · next failures region hphase =>
      obtain ⟨rfl, rfl⟩ := Prod.mk.inj (Option.some.inj hwrite)
      rw [hphase]
      exact .writeRegion failures rfl
    · next place tx hphase =>
      obtain ⟨rfl, rfl⟩ := Prod.mk.inj (Option.some.inj hwrite)
      rw [hphase]
      exact .writeSoftware place tx a v mask
    · cases hwrite
  | abort code =>
    obtain ⟨⟨err, w₁⟩, habort, heq⟩ := Option.map_eq_some_iff.1 h
    obtain ⟨rfl, rfl, rfl⟩ : Reply.aborted err = reply ∧ w₁ = w' ∧ r = r' := by simpa using heq
    unfold abort at habort
    split at habort
    · next failures region hphase =>
      obtain ⟨rfl, rfl⟩ := Prod.mk.inj (Option.some.inj habort)
      rw [hphase]
      exact .abort failures region code
    · cases habort
  | endBody result =>
    obtain ⟨w₁, hend, heq⟩ := Option.map_eq_some_iff.1 h
    obtain ⟨rfl, rfl, rfl⟩ : Reply.done = reply ∧ w₁ = w' ∧ r = r' := by simpa using heq
    unfold endBody at hend
    split at hend
    · next failures region hphase =>
      obtain rfl := Option.some.inj hend
      rw [hphase]
      exact .endRegion failures region result
    · next place tx hphase =>
      obtain rfl := Option.some.inj hend
      rw [hphase]
      exact .endSoftware place tx result
    · cases hend
  | panic =>
    obtain ⟨⟨w₁, r₁⟩, hpanic, heq⟩ := Option.map_eq_some_iff.1 h
    obtain ⟨rfl, rfl, rfl⟩ : Reply.done = reply ∧ w₁ = w' ∧ r₁ = r' := by simpa using heq
    exact turn_of_panic hpanic

end Worker

/-- A step of a system is a turn of one worker. -/
theorem System.turn_of_act {ι : Type} [DecidableEq ι] {s s' : System ι} {i : ι} {q : Request}
    {reply : Reply} (h : s.act i q = some (reply, s')) :
    Worker.Turn s.runtime.backend s.runtime.engine.shared (s.worker i).deferred
        (s.worker i).phase q reply (s'.worker i).deferred (s'.worker i).phase
        s'.runtime.engine.shared s'.runtime.backend ∧
      ∀ j, j ≠ i → s'.worker j = s.worker j := by
  obtain ⟨⟨reply', w, r⟩, hw, heq⟩ := Option.map_eq_some_iff.1 h
  obtain ⟨rfl, rfl⟩ := Prod.mk.inj heq
  refine ⟨?_, fun j hj => Function.update_of_ne hj _ _⟩
  simp only [Function.update_self]
  exact Worker.turn_of_act hw

end HybridTM
