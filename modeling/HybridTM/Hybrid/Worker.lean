import HybridTM.Hybrid.Heuristic
import HybridTM.Hybrid.Phase
import HybridTM.Hybrid.Runtime

/-!
# Workers

A worker runs the transactions of one thread on a runtime. A call tries hardware first.
Failures in hardware lead it to an epoch of its own in software, as its heuristic
decides, or, once there are too many, to the global lock. While the runtime is in
software mode a call joins the running epoch, and while another worker holds the global
lock it waits.

Every function is one atomic step of one worker. `advance` takes the worker's own next
step; the steps of a running body are `read`, `write`, `abort`, `endBody` and `panic`; and
`account` ends a measured stretch with the ticks it took. A function answers `none` when
the worker is not at such a step or has to wait. A step that needs the mean cost of hardware
passes an overflow on to whoever makes it (`completed`).
-/

namespace HybridTM

/-- The state of one thread on a runtime. -/
structure Worker where
  /-- The state in the software engine. -/
  context : Context
  /-- The adaptive state. -/
  heuristic : Heuristic
  /-- Whether the worker runs a software epoch of its own. -/
  deferred : Bool
  /-- What the worker is in the middle of. -/
  phase : Phase

namespace Worker

/-- A worker that ran nothing. -/
def new (r : Runtime) : Worker where
  context := r.engine.newContext
  heuristic := .new r.config
  deferred := false
  phase := .resting none

/-! ## Tallies -/

/-- Change the tally. -/
def modifyTally (w : Worker) (f : Tally → Tally) : Worker :=
  { w with context := { w.context with tally := f w.context.tally } }

/-- Count a swap from hardware to software. -/
def countToSoftware (w : Worker) : Worker :=
  w.modifyTally fun t => { t with switchesToSoftware := t.switchesToSoftware + 1 }

/-- Count a swap from software to hardware. -/
def countToHardware (w : Worker) : Worker :=
  w.modifyTally fun t => { t with switchesToHardware := t.switchesToHardware + 1 }

/-- Count an acquisition of the global lock. -/
def countLock (w : Worker) : Worker :=
  w.modifyTally fun t => { t with glockAcquisitions := t.glockAcquisitions + 1 }

/-- Count a commit in hardware. -/
def countHardwareCommit (w : Worker) : Worker :=
  w.modifyTally fun t => { t with commitsHardware := t.commitsHardware + 1 }

/-- Move the tally into the store. -/
def flush (w : Worker) (r : Runtime) : Worker × Runtime :=
  let (context, metrics) := w.context.flush r.metrics
  ({ w with context }, { r with metrics })

/-! ## Calls and endings -/

/-- Go to a phase. -/
def goto (w : Worker) (phase : Phase) : Worker := { w with phase }

/-- Come to rest. A worker that retires leaves its tally and its token behind. -/
def rest (w : Worker) (r : Runtime) (ending : Ending) : Worker × Runtime :=
  let w := w.goto (.resting (some ending))
  match ending with
  | .retired =>
      let (w, r) := w.flush r
      (w, { r with engine := r.engine.dropContext w.context })
  | _ => (w, r)

/-- Begin a call. -/
def call (w : Worker) : Option Worker :=
  match w.phase with
  | .resting (some .retired) => none
  | .resting _ => some (w.goto (.dispatch 0))
  | _ => none

/-- Begin to drop a worker. Its epoch ends first. -/
def retire (w : Worker) (r : Runtime) : Option (Worker × Runtime) :=
  match w.phase with
  | .resting (some .retired) => none
  | .resting _ =>
      if w.deferred then
        some ({ w with deferred := false }.goto (.switching (.endEpoch .retired) .load), r)
      else
        some (w.rest r .retired)
  | _ => none

/-- The value that the last call returned. -/
def returned? (w : Worker) : Option Word := w.phase.returned?

/-! ## Changing the mode word -/

/-- Begin a software call. -/
def enterSoftware (w : Worker) (r : Runtime) (place : Place) : Worker :=
  w.goto (.software place (.new r.engine.clock))

/-- Whether a change of the mode word went from software to hardware. -/
def returnsToHardware : Option (ModeSnapshot × ModeSnapshot) → Bool
  | some (seen, next) => seen.mode == .sw && next.mode == .hw
  | none => false

/-- What follows an errand that changed the mode word as given, or did not change it. -/
def afterErrand (w : Worker) (r : Runtime) (errand : Errand)
    (change : Option (ModeSnapshot × ModeSnapshot)) : Except Overflow (Worker × Runtime) :=
  match errand with
  -- A refusal means that another worker took the global lock.
  | .register failures =>
      if change.isSome then .ok (w.goto (.switching (.flip failures) .load), r)
      else .ok (w.goto (.dispatch failures), r)
  | .flip failures =>
      let w := if change.isSome then w.countToSoftware else w
      w.heuristic.beginEpoch.map fun heuristic =>
        ({ w with deferred := true, heuristic }.goto (.dispatch failures), r)
  | .join failures =>
      if change.isSome then .ok (w.enterSoftware r .joined, r)
      else .ok (w.goto (.dispatch failures), r)
  | .lock failures =>
      if change.isSome then .ok (w.countLock.enterSoftware r .lock, r)
      else .ok (w.goto (.dispatch failures), r)
  -- The end of the epoch is not counted by a call that is unwound.
  | .leave ending =>
      let counted := returnsToHardware change && ending != .unwound
      .ok ((if counted then w.countToHardware else w).rest r ending)
  | .endEpoch ending =>
      .ok ((if returnsToHardware change then w.countToHardware else w).rest r ending)
  | .unlock ending => .ok (w.rest r ending)

/-- The next step of an errand. -/
def advanceErrand (w : Worker) (r : Runtime) (errand : Errand) (stage : SwapStage) :
    Except Overflow (Worker × Runtime) :=
  match stage with
  | .load =>
      let seen := r.mode
      match errand.change? seen with
      | some next => .ok (w.goto (.switching errand (.swap seen next)), r)
      | none => w.afterErrand r errand none
  | .swap seen next =>
      let (swapped, r) := r.swapMode seen next
      if swapped then
        -- The gauge follows changes of the mode only.
        if seen.mode = next.mode then w.afterErrand r errand (some (seen, next))
        else .ok (w.goto (.switching errand (.announce seen next)), r)
      else if errand.isPersistent then
        .ok (w.goto (.switching errand .load), r)
      else
        w.afterErrand r errand none
  | .announce seen next => w.afterErrand (r.showMode next.mode) errand (some (seen, next))

/-- The phase that gives the global lock back. -/
def unlocking (ending : Ending) : Phase :=
  .switching (.unlock ending) (.swap .locked .initial)

/-! ## The worker's own steps -/

/-- Choose the path of the next attempt. A worker waits while the global lock is held and
while an epoch is draining; if it needs the lock itself, it also waits while an epoch is
about to begin. -/
def choosePath (w : Worker) (r : Runtime) (failures : UInt32) : Option Worker :=
  if w.deferred then
    some (w.enterSoftware r .epoch)
  else
    let seen := r.mode
    match seen.mode with
    | .glock => none
    | .sw =>
        seen.enterUndeferred?.map fun next =>
          w.goto (.switching (.join failures) (.swap seen next))
    | .hw =>
        if r.config.maxRetries ≤ failures then
          seen.acquireLock?.map fun _ => w.goto (.switching (.lock failures) .load)
        else
          some (w.goto (.hardware failures .starting))

/-- Read the mode word inside a region. Outside hardware mode the region aborts. -/
def checkMode (r : Runtime) (region : Region) : Execution :=
  match r.backend.read region r.memory Runtime.modeAddr fullMask with
  | (.error abort, region) => .done (.error (region.failure (.hardware abort)))
  | (.ok word, region) =>
      if (ModeSnapshot.decode word).mode = .hw then
        .running region
      else
        let (abort, region) := region.abort AbortCode.modeChanged
        .done (.error (region.failure (.hardware abort)))

/-- The next step of a hardware execution. -/
def advanceHardware (w : Worker) (r : Runtime) (failures : UInt32) (x : Execution) :
    Option (Worker × Runtime) :=
  (x.advance r.backend r.memory).map fun (x', backend, m) =>
    let r := { r.withMemory m with backend }
    match x, x' with
    | .starting, .running region => (w.goto (.checking failures region), r)
    | _, _ => (w.goto (.hardware failures x'), r)

/-- What follows a software call that committed. -/
def afterSoftware (w : Worker) (place : Place) (value : Word) : Worker :=
  match place with
  | .epoch => w.goto (.measuring value)
  | .joined => w.goto (.switching (.leave (.returned value)) .load)
  | .lock => w.goto (unlocking (.returned value))

/-- The next step of a software call. -/
def advanceSoftware (w : Worker) (r : Runtime) (place : Place) (call : Call) :
    Option (Worker × Runtime) :=
  (call.advance (place = .lock) w.context r.engine).map fun (progress, context, engine) =>
    let w := { w with context }
    let r := { r with engine }
    match progress with
    | .going call => (w.goto (.software place call), r)
    | .committed value => (w.afterSoftware place value, r)

/-- The worker's own next step. -/
def advance (w : Worker) (r : Runtime) : Option (Except Overflow (Worker × Runtime)) :=
  match w.phase with
  | .resting _ | .measuring _ => none
  | .dispatch failures => (w.choosePath r failures).map fun w => .ok (w, r)
  | .checking failures region => some (.ok (w.goto (.hardware failures (checkMode r region)), r))
  | .hardware failures x => (w.advanceHardware r failures x).map .ok
  | .switching errand stage => some (w.advanceErrand r errand stage)
  | .software place call => (w.advanceSoftware r place call).map .ok

/-! ## Accounting -/

/-- Put a sampled mean into the store, if it is finite. -/
def observeSample (r : Runtime) (sample : Option HardwareSample) : Runtime :=
  match sample with
  | some s =>
      if s.meanCost.isFinite then
        { r with metrics := r.metrics.observe MetricName.costHardware s.meanCost.toUInt64 }
      else
        r
  | none => r

/-- Where a failure in hardware that counts leads: to an epoch of the worker's own if the
heuristic favors it, and to no further attempt if the hardware gives no hope of success. -/
def failureTarget (favors : Bool) (limit failures : UInt32) (abort : HardwareAbort) : Phase :=
  if favors then
    .switching (.register failures) .load
  else if abort.isPersistent && !abort.isCapacity then
    -- Another attempt would fail for the same reason.
    .dispatch limit
  else
    .dispatch failures

/-- What follows a failure in hardware that counts. -/
def afterFailure (w : Worker) (r : Runtime) (failures : UInt32) (abort : HardwareAbort) :
    Except Overflow Worker :=
  (w.heuristic.favorsSoftware abort).map fun favors =>
    w.goto (failureTarget favors r.config.maxRetries failures abort)

/-- Account for a hardware execution. An abort by a change of mode is no failure. -/
def accountHardware (w : Worker) (r : Runtime) (failures : UInt32)
    (result : Except HardwareAbort Word) (ticks : UInt64) :
    Except Overflow (Worker × Runtime) :=
  match result with
  | .ok value =>
      let w := w.countHardwareCommit
      let (context, token) := w.context.notifyCommit r.engine.token
      let (sample, heuristic) := w.heuristic.recordHardwareCommit ticks
      sample.map fun sample =>
        let r := observeSample { r with engine := { r.engine with token } } sample
        ({ w with context, heuristic }.goto (.resting (some (.returned value))), r)
  | .error abort =>
      let w := w.modifyTally (·.recordAbort (.hardware abort))
      if abort.isModeChange then
        -- Neither a failure nor a sample: the region only came at the wrong time.
        .ok (w.goto (.dispatch failures), r)
      else
        let (sample, heuristic) := w.heuristic.recordHardwareAbort ticks abort
        sample.bind fun sample =>
          let r := observeSample r sample
          ({ w with heuristic }.afterFailure r (failures + 1) abort).map (·, r)

/-- Account for a commit of the worker's own epoch. -/
def accountSoftware (w : Worker) (r : Runtime) (value : Word) (ticks : UInt64) :
    Worker × Runtime :=
  let (verdict, heuristic) := w.heuristic.recordSoftwareCommit ticks
  let w := { w with heuristic }
  let r :=
    match verdict, heuristic.lastSoftwareMean with
    | .stay, _ | _, none => r
    | _, some mean =>
        { r with metrics := r.metrics.observe MetricName.costSoftware mean.toUInt64 }
  match verdict with
  | .returnToHardware =>
      ({ w with deferred := false }.goto (.switching (.endEpoch (.returned value)) .load), r)
  | _ => (w.goto (.resting (some (.returned value))), r)

/-- End a measured stretch that took the given ticks. -/
def account (w : Worker) (r : Runtime) (ticks : UInt64) :
    Option (Except Overflow (Worker × Runtime)) :=
  match w.phase with
  | .hardware failures (.done result) => some (w.accountHardware r failures result ticks)
  | .measuring value => some (.ok (w.accountSoftware r value ticks))
  | _ => none

/-- What a step that is possible leads to, unless it overflows. -/
def completed (step : Option (Except Overflow (Worker × Runtime))) : Option (Worker × Runtime) :=
  step.bind (·.toOption)

@[simp] theorem completed_ok (x : Worker × Runtime) : completed (some (.ok x)) = some x := rfl

theorem eq_some_of_completed {step : Option (Except Overflow (Worker × Runtime))}
    {x : Worker × Runtime} (h : completed step = some x) : step = some (.ok x) := by
  rcases step with _ | (overflow | y)
  · cases h
  · cases h
  · rw [← Option.some.inj h]

/-! ## The steps of a body -/

/-- The path of the body that is running. -/
def path? (w : Worker) : Option Path := w.phase.path?

/-- The body reads a word. -/
def read (w : Worker) (r : Runtime) (a : Addr) (mask : Mask) :
    Option (Except TxError Word × Worker) :=
  match w.phase with
  | .hardware failures (.running region) =>
      let (result, x) := Execution.read region r.backend r.memory a mask
      some (result, w.goto (.hardware failures x))
  | .software place ⟨tx, .running⟩ =>
      (Call.read ⟨tx, .running⟩ r.engine a mask).map fun (result, call) =>
        (result, w.goto (.software place call))
  | _ => none

/-- The body writes a word. -/
def write (w : Worker) (r : Runtime) (a : Addr) (v : Word) (mask : Mask) :
    Option (Except TxError Unit × Worker) :=
  match w.phase with
  | .hardware failures (.running region) =>
      let (result, x) := Execution.write region r.backend a v mask
      some (result, w.goto (.hardware failures x))
  | .software place ⟨tx, .running⟩ =>
      some (.ok (), w.goto (.software place (Call.write ⟨tx, .running⟩ a v mask)))
  | _ => none

/-- The body aborts its hardware region. -/
def abort (w : Worker) (code : UInt8) : Option (TxError × Worker) :=
  match w.phase with
  | .hardware failures (.running region) =>
      let (err, x) := Execution.abort region code
      some (err, w.goto (.hardware failures x))
  | _ => none

/-- The body returns. -/
def endBody (w : Worker) (result : Except TxError Word) : Option Worker :=
  match w.phase with
  | .hardware failures (.running region) =>
      some (w.goto (.hardware failures (Execution.endBody region result)))
  | .software place ⟨tx, .running⟩ =>
      some (w.goto (.software place (Call.endBody ⟨tx, .running⟩ result)))
  | _ => none

/-- The body panics. Its region or transaction is dropped, and a joined epoch or the
global lock is given back before the call is unwound. -/
def panic (w : Worker) (r : Runtime) : Option (Worker × Runtime) :=
  match w.phase with
  | .hardware _ (.running _) => some (w.goto (.resting (some .unwound)), r)
  | .software place ⟨tx, .running⟩ =>
      let r := { r with engine := r.engine.dropTransaction tx }
      match place with
      | .epoch => some (w.goto (.resting (some .unwound)), r)
      | .joined => some (w.goto (.switching (.leave .unwound) .load), r)
      | .lock => some (w.goto (unlocking .unwound), r)
  | _ => none

/-- The diagnostic text of a worker. -/
def text (w : Worker) : String :=
  recordText "Worker" [("deferred", boolText w.deferred), ("ctx", w.context.text)]

end Worker

end HybridTM
