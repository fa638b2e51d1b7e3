import HybridTM.Proofs.Books
import HybridTM.Proofs.Passages

/-!
# Switches between modes in the books

The switches between hardware and software are counted in the tallies of the workers and in the
counters of the store, and the current mode is shown on a gauge of the store. What a step of a
worker does to these depends only on its phase (`Worker.credits_of_act`): an errand that comes to
show a change of the mode sets the gauge, and it counts the change unless its call is unwound.
-/

set_option autoImplicit false

namespace HybridTM

open scoped UInt64.CommRing

/-! ## What is counted -/

/-- The direction of a switch between hardware and software. -/
inductive Direction where
  /-- From hardware to software. -/
  | toSoftware
  /-- From software to hardware. -/
  | toHardware
  deriving DecidableEq, Repr

namespace Direction

/-- The name of the counter. -/
def name : Direction → String
  | toSoftware => MetricName.switchesToSoftware
  | toHardware => MetricName.switchesToHardware

/-- Whether a change of the mode goes in a direction. -/
def leads (before after : Mode) : Direction → Bool
  | toSoftware => before == .hw && after == .sw
  | toHardware => before == .sw && after == .hw

theorem leads_self (d : Direction) (mode : Mode) : d.leads mode mode = false := by
  cases d <;> cases mode <;> rfl

/-- One for a switch in a direction. -/
def one (d : Direction) : Direction → UInt64 := fun d' => if d' = d then 1 else 0

end Direction

namespace Tally

/-- The switches in a tally. -/
def switches (t : Tally) : Direction → UInt64
  | .toSoftware => t.switchesToSoftware
  | .toHardware => t.switchesToHardware

theorem switches_recordAbort (t : Tally) (err : TxError) (d : Direction) :
    (t.recordAbort err).switches d = t.switches d := by
  cases err with
  | hardware abort =>
    obtain ⟨reason, mayRetry⟩ := abort
    cases reason <;> cases d <;> rfl
  | _ => cases d <;> rfl

theorem switches_recordCommit (t : Tally) (kind : CommitKind) (d : Direction) :
    (t.recordCommit kind).switches d = t.switches d := by
  cases kind <;> cases d <;> rfl

theorem switches_withEscalations (t : Tally) (n : UInt64) (d : Direction) :
    (t.withEscalations n).switches d = t.switches d := by
  cases d <;> rfl

/-- A flush moves the switches to their counters. -/
theorem switches_flush (t : Tally) (m : Metrics) (d : Direction) :
    (t.flush m).2.counter d.name = m.counter d.name + t.switches d := by
  refine t.counter_flush_of_mem m ?_
  cases d <;> simp [named, Direction.name, switches]

end Tally

theorem Context.switches_countAttempts (c : Context) (n : Word) (d : Direction) :
    (c.countAttempts n).tally.switches d = c.tally.switches d := by
  cases d <;> rfl

/-- Whether a call that joined an epoch leaves it while it is unwound. -/
def Errand.isUnwinding : Errand → Bool
  | .leave .unwound => true
  | _ => false

/-- What a worker counts of a change of the mode by an errand. -/
def Errand.credited (errand : Errand) (before after : Mode) : Direction → UInt64 :=
  fun d => if d.leads before after && !errand.isUnwinding then 1 else 0

/-- What is yet to be counted: a change that is not yet shown. -/
def Phase.owed (p : Phase) : Direction → UInt64 :=
  match p.unshown? with
  | some (errand, seen, next) => errand.credited seen.mode next.mode
  | none => fun _ => 0

namespace Worker

/-- A step of a worker counts the given switches and shows the given mode, if any. -/
structure Credits (w : Worker) (r : Runtime) (n : Direction → UInt64) (shown : Option Mode)
    (w' : Worker) (r' : Runtime) : Prop where
  /-- What is counted in the tally and in the store grows by the switches. -/
  switches : ∀ d, r'.metrics.counter d.name + w'.context.tally.switches d =
    r.metrics.counter d.name + w.context.tally.switches d + n d
  /-- The gauge shows the mode, or what it showed. -/
  gauge : r'.metrics.gauge? MetricName.modeCurrent =
    (shown.map fun mode => .ofNat mode.bits).or (r.metrics.gauge? MetricName.modeCurrent)

namespace Credits

variable {w w₁ w' : Worker} {r r₁ r' : Runtime} {n m : Direction → UInt64}
  {shown shown' : Option Mode}

/-- A step that leaves the switches in the tally, the counters and the gauges alone. -/
theorem quiet (tally : ∀ d, w'.context.tally.switches d = w.context.tally.switches d)
    (counter : ∀ name, r'.metrics.counter name = r.metrics.counter name)
    (gauge : ∀ name, r'.metrics.gauge? name = r.metrics.gauge? name) :
    w.Credits r (fun _ => 0) none w' r' where
  switches d := by rw [tally, counter, add_zero]
  gauge := gauge _

theorem trans (C : w.Credits r n shown w₁ r₁) (C' : w₁.Credits r₁ m shown' w' r') :
    w.Credits r (fun d => n d + m d) (shown'.or shown) w' r' where
  switches d := by rw [C'.switches, C.switches, add_assoc]
  gauge := by
    rw [C'.gauge, C.gauge]
    cases shown' <;> rfl

/-- The same step counts the same. -/
theorem congr (C : w.Credits r n shown w' r') (h : ∀ d, n d = m d) :
    w.Credits r m shown w' r' :=
  { C with switches := fun d => by rw [C.switches, h] }

end Credits

/-! ## What steps count -/

variable {w w' : Worker} {r r' : Runtime}

theorem credits_flush (w : Worker) (r : Runtime) :
    w.Credits r (fun _ => 0) none (w.flush r).1 (w.flush r).2 where
  switches d := by
    show (w.context.tally.flush r.metrics).2.counter d.name + Tally.zero.switches d = _
    have hzero : Tally.zero.switches d = 0 := by cases d <;> rfl
    rw [Tally.switches_flush, hzero]
  gauge := congrArg (·[MetricName.modeCurrent]?) (w.context.tally.gauges_flush r.metrics)

theorem credits_rest (w : Worker) (r : Runtime) (ending : Ending) :
    w.Credits r (fun _ => 0) none (w.rest r ending).1 (w.rest r ending).2 := by
  cases ending with
  | retired =>
    have C := credits_flush (w.goto (.resting (some .retired))) r
    exact ⟨C.switches, C.gauge⟩
  | _ => exact .quiet (fun _ => rfl) (fun _ => rfl) (fun _ => rfl)

theorem credits_countToSoftware (w : Worker) (r : Runtime) :
    w.Credits r (Direction.one .toSoftware) none w.countToSoftware r where
  switches d := by
    cases d
    · exact (add_assoc ..).symm
    · exact (add_zero _).symm
  gauge := rfl

theorem credits_countToHardware (w : Worker) (r : Runtime) :
    w.Credits r (Direction.one .toHardware) none w.countToHardware r where
  switches d := by
    cases d
    · exact (add_zero _).symm
    · exact (add_assoc ..).symm
  gauge := rfl

/-- Who comes to rest after the end of an epoch counts it or does not. -/
theorem credits_departure (w : Worker) (r : Runtime) (counted : Bool) (ending : Ending) :
    w.Credits r (fun d => if counted then Direction.one .toHardware d else 0) none
      ((if counted then w.countToHardware else w).rest r ending).1
      ((if counted then w.countToHardware else w).rest r ending).2 := by
  cases counted with
  | false => exact credits_rest w r ending
  | true =>
    exact ((credits_countToHardware w r).trans (credits_rest w.countToHardware r ending)).congr
      fun _ => add_zero _

end Worker

/-- What an errand counts when it is over, depending on the change that it made. -/
def Errand.counted (change : Option (ModeSnapshot × ModeSnapshot)) : Errand → Direction → UInt64
  | .flip _ => fun d => if change.isSome then Direction.one .toSoftware d else 0
  | .leave ending => fun d =>
      if Worker.returnsToHardware change && ending != .unwound then Direction.one .toHardware d
      else 0
  | .endEpoch _ => fun d =>
      if Worker.returnsToHardware change then Direction.one .toHardware d else 0
  | _ => fun _ => 0

theorem Errand.counted_none (errand : Errand) (d : Direction) : errand.counted none d = 0 := by
  cases errand <;> rfl

/-- An errand counts the switches that it makes, unless the call is unwound. -/
theorem Errand.counted_some {errand : Errand} {seen next : ModeSnapshot}
    (change : errand.change? seen = some next) (d : Direction) :
    errand.counted (some (seen, next)) d = errand.credited seen.mode next.mode d := by
  by_cases mode : seen.mode = next.mode
  · have none : errand.credited seen.mode next.mode d = 0 := by
      rw [credited, mode, Direction.leads_self]
      rfl
    have stays : Worker.returnsToHardware (some (seen, next)) = false := by
      rw [Worker.returnsToHardware, mode]
      cases next.mode <;> rfl
    rw [none]
    cases errand with
    | flip failures =>
      obtain ⟨hw, -, rfl⟩ := ModeSnapshot.flipToSoftware?_eq_some_iff.1 change
      rw [hw] at mode
      cases mode
    | leave ending => simp only [counted, stays, Bool.false_and, Bool.false_eq_true, if_false]
    | endEpoch ending => simp only [counted, stays, Bool.false_eq_true, if_false]
    | _ => rfl
  · have R := Errand.route change mode
    obtain ⟨before, _, _⟩ := seen
    obtain ⟨after, _, _⟩ := next
    cases R with
    | flip failures => cases d <;> rfl
    | lock failures => cases d <;> rfl
    | unlock ending => cases d <;> rfl
    | leave ending other => cases d <;> cases before <;> cases ending <;> rfl
    | endEpoch ending other => cases d <;> cases before <;> rfl

namespace Worker

variable {w w' : Worker} {r r' : Runtime}

theorem credits_afterErrand {errand : Errand} {change : Option (ModeSnapshot × ModeSnapshot)}
    (h : w.afterErrand r errand change = .ok (w', r')) :
    w.Credits r (errand.counted change) none w' r' := by
  cases errand with
  | register failures =>
    cases change <;> obtain ⟨rfl, rfl⟩ := Prod.mk.inj (Except.ok.inj h) <;>
      exact .quiet (fun _ => rfl) (fun _ => rfl) (fun _ => rfl)
  | flip failures =>
    obtain ⟨heuristic, -, heq⟩ := exists_of_map_eq_ok h
    obtain ⟨rfl, rfl⟩ := Prod.mk.inj heq
    cases change with
    | none => exact .quiet (fun _ => rfl) (fun _ => rfl) (fun _ => rfl)
    | some change =>
      have C := credits_countToSoftware w r
      exact ⟨C.switches, C.gauge⟩
  | join failures =>
    cases change <;> obtain ⟨rfl, rfl⟩ := Prod.mk.inj (Except.ok.inj h) <;>
      exact .quiet (fun _ => rfl) (fun _ => rfl) (fun _ => rfl)
  | lock failures =>
    cases change <;> obtain ⟨rfl, rfl⟩ := Prod.mk.inj (Except.ok.inj h) <;>
      exact .quiet (fun d => by cases d <;> rfl) (fun _ => rfl) (fun _ => rfl)
  | leave ending =>
    obtain ⟨rfl, rfl⟩ := Prod.mk.inj (Except.ok.inj h)
    exact credits_departure w r _ ending
  | endEpoch ending =>
    obtain ⟨rfl, rfl⟩ := Prod.mk.inj (Except.ok.inj h)
    exact credits_departure w r _ ending
  | unlock ending =>
    obtain ⟨rfl, rfl⟩ := Prod.mk.inj (Except.ok.inj h)
    exact credits_rest w r ending

end Worker

/-- The mode that an errand is about to show. -/
def Phase.unshownMode? (p : Phase) : Option Mode := p.unshown?.map fun (_, _, next) => next.mode

/-- What a step counts: an errand that shows a change of the mode counts it. -/
def Phase.credited (p : Phase) (q : Request) : Direction → UInt64 :=
  match q with
  | .advance => p.owed
  | _ => fun _ => 0

/-- What a step shows on the gauge. -/
def Phase.shows (p : Phase) (q : Request) : Option Mode :=
  match q with
  | .advance => p.unshownMode?
  | _ => none

namespace Worker

variable {w w' : Worker} {r r' : Runtime}

theorem credits_advanceErrand {errand : Errand} {stage : SwapStage} {deferred : Bool}
    (sound : (Phase.switching errand stage).Sound deferred)
    (applied : (Phase.switching errand stage).Applied)
    (h : w.advanceErrand r errand stage = .ok (w', r')) :
    w.Credits r (Phase.switching errand stage).owed (Phase.switching errand stage).unshownMode? w'
      r' := by
  cases stage with
  | load =>
    unfold advanceErrand at h
    simp only at h
    split at h
    · obtain ⟨rfl, rfl⟩ := Prod.mk.inj (Except.ok.inj h)
      exact .quiet (fun _ => rfl) (fun _ => rfl) (fun _ => rfl)
    · exact (credits_afterErrand h).congr errand.counted_none
  | swap seen next =>
    rcases hswap : r.swapMode seen next with ⟨swapped, r₁⟩
    -- A swap changes memory and backend only.
    have kept : w.Credits r (fun _ => 0) none w r₁ := by
      obtain ⟨-, rfl⟩ := Prod.mk.inj hswap
      exact .quiet (fun _ => rfl) (fun _ => rfl) (fun _ => rfl)
    simp only [advanceErrand, hswap] at h
    split at h
    · split at h
      · next mode =>
        refine (kept.trans (credits_afterErrand h)).congr fun d => ?_
        rw [zero_add, Errand.counted_some sound.2.2, Errand.credited, mode, Direction.leads_self]
        rfl
      · obtain ⟨rfl, rfl⟩ := Prod.mk.inj (Except.ok.inj h)
        exact ⟨kept.switches, kept.gauge⟩
    · split at h
      · obtain ⟨rfl, rfl⟩ := Prod.mk.inj (Except.ok.inj h)
        exact ⟨kept.switches, kept.gauge⟩
      · exact (kept.trans (credits_afterErrand h)).congr fun d => by
          rw [zero_add, Errand.counted_none]; rfl
  | announce seen next =>
    have shown : w.Credits r (fun _ => 0) (some next.mode) w (r.showMode next.mode) :=
      ⟨fun _ => (add_zero _).symm, by
        show (r.metrics.setGauge _ _).gauge? _ = _
        rw [Metrics.gauge?_setGauge, if_pos rfl]
        rfl⟩
    refine (shown.trans (credits_afterErrand h)).congr fun d => ?_
    rw [zero_add, Errand.counted_some (applied errand seen next rfl).1]
    rfl

theorem credits_advanceSoftware {place : Place} {call : Call}
    (h : w.advanceSoftware r place call = some (w', r')) : w.Credits r (fun _ => 0) none w' r' := by
  obtain ⟨⟨progress, context, engine⟩, hcall, heq⟩ := Option.map_eq_some_iff.1 h
  have R := (Call.record_of_advance hcall).1
  have tally (d : Direction) : context.tally.switches d = w.context.tally.switches d := by
    generalize engine.token = t at R
    generalize engine.shared = s at R
    cases R with
    | commit stage commits =>
      exact (Tally.switches_recordCommit _ _ d).trans (Context.switches_countAttempts _ _ d)
    | rollback stage =>
      obtain ⟨n, htally⟩ := w.context.tally_afterAbort (decide (place = .lock)) _
        (call.tx.rollback r.engine.clock).1.lockAttempts r.engine.config.maxFailures r.engine.token
      rw [htally, Tally.switches_withEscalations, Tally.switches_recordAbort,
        Context.switches_countAttempts]
    | _ => rfl
  cases progress with
  | going call' =>
    obtain ⟨rfl, rfl⟩ := Prod.mk.inj heq
    exact .quiet tally (fun _ => rfl) (fun _ => rfl)
  | committed value =>
    obtain ⟨rfl, rfl⟩ := Prod.mk.inj heq
    cases place <;> exact .quiet tally (fun _ => rfl) (fun _ => rfl)

theorem credits_accountHardware {failures : UInt32} {result : Except HardwareAbort Word}
    {ticks : UInt64} (h : w.accountHardware r failures result ticks = .ok (w', r')) :
    w.Credits r (fun _ => 0) none w' r' := by
  have sampled (r : Runtime) (sample : Option HardwareSample) (name : String) :
      (observeSample r sample).metrics.counter name = r.metrics.counter name ∧
        (observeSample r sample).metrics.gauge? name = r.metrics.gauge? name := by
    unfold observeSample
    split
    · split <;> exact ⟨rfl, rfl⟩
    · exact ⟨rfl, rfl⟩
  cases result with
  | ok value =>
    obtain ⟨sample, -, rfl, rfl⟩ := accountHardware_ok h
    exact .quiet (fun d => by cases d <;> rfl) (fun _ => (sampled _ _ _).1)
      (fun _ => (sampled _ _ _).2)
  | error abort =>
    have tally (d : Direction) : (w.context.tally.recordAbort (.hardware abort)).switches d =
        w.context.tally.switches d := Tally.switches_recordAbort _ _ d
    rcases accountHardware_error h with ⟨-, rfl, rfl⟩ | ⟨-, sample, favors, -, -, rfl, rfl⟩
    · exact .quiet tally (fun _ => rfl) (fun _ => rfl)
    · exact .quiet tally (fun _ => (sampled _ _ _).1) (fun _ => (sampled _ _ _).2)

theorem credits_accountSoftware {value : Word} {ticks : UInt64}
    (h : w.accountSoftware r value ticks = (w', r')) : w.Credits r (fun _ => 0) none w' r' := by
  rcases hrecord : w.heuristic.recordSoftwareCommit ticks with ⟨verdict, heuristic⟩
  simp only [accountSoftware, hrecord] at h
  cases hmean : heuristic.lastSoftwareMean <;> rw [hmean] at h <;> cases verdict <;>
    obtain ⟨rfl, rfl⟩ := Prod.mk.inj h <;> exact .quiet (fun _ => rfl) (fun _ => rfl) (fun _ => rfl)

theorem credits_choosePath {failures : UInt32} (h : w.choosePath r failures = some w') :
    w.Credits r (fun _ => 0) none w' r := by
  unfold choosePath at h
  split at h
  · obtain rfl := Option.some.inj h
    exact .quiet (fun _ => rfl) (fun _ => rfl) (fun _ => rfl)
  · simp only at h
    split at h
    · cases h
    · obtain ⟨next, -, rfl⟩ := Option.map_eq_some_iff.1 h
      exact .quiet (fun _ => rfl) (fun _ => rfl) (fun _ => rfl)
    · split at h
      · obtain ⟨next, -, rfl⟩ := Option.map_eq_some_iff.1 h
        exact .quiet (fun _ => rfl) (fun _ => rfl) (fun _ => rfl)
      · obtain rfl := Option.some.inj h
        exact .quiet (fun _ => rfl) (fun _ => rfl) (fun _ => rfl)

theorem credits_advance (sound : w.phase.Sound w.deferred) (applied : w.phase.Applied)
    (h : w.advance r = some (.ok (w', r'))) :
    w.Credits r w.phase.owed w.phase.unshownMode? w' r' := by
  unfold advance at h
  split at h
  · cases h
  · cases h
  · next failures hphase =>
    obtain ⟨w₁, hchoose, heq⟩ := Option.map_eq_some_iff.1 h
    obtain ⟨rfl, rfl⟩ := Prod.mk.inj (Except.ok.inj heq)
    rw [hphase]
    exact credits_choosePath hchoose
  · next failures region hphase =>
    obtain ⟨rfl, rfl⟩ := Prod.mk.inj (Except.ok.inj (Option.some.inj h))
    rw [hphase]
    exact .quiet (fun _ => rfl) (fun _ => rfl) (fun _ => rfl)
  · next failures x hphase =>
    obtain ⟨_, hadvance, heq⟩ := Option.map_eq_some_iff.1 h
    obtain rfl := Except.ok.inj heq
    obtain ⟨⟨x', b', m⟩, -, heq⟩ := Option.map_eq_some_iff.1 hadvance
    simp only at heq
    rw [hphase]
    split at heq <;> obtain ⟨rfl, rfl⟩ := Prod.mk.inj heq <;>
      exact .quiet (fun _ => rfl) (fun _ => rfl) (fun _ => rfl)
  · next errand stage hphase =>
    rw [hphase] at sound applied ⊢
    exact credits_advanceErrand sound applied (Option.some.inj h)
  · next place call hphase =>
    obtain ⟨_, hadvance, heq⟩ := Option.map_eq_some_iff.1 h
    obtain rfl := Except.ok.inj heq
    rw [hphase]
    exact credits_advanceSoftware hadvance

/-- Every step of a worker counts and shows what its phase says. -/
theorem credits_of_act (sound : w.phase.Sound w.deferred) (applied : w.phase.Applied) {q : Request}
    {reply : Reply} (h : w.act r q = some (reply, w', r')) :
    w.Credits r (w.phase.credited q) (w.phase.shows q) w' r' := by
  -- A step of a body or to the beginning of a call leaves the context and the store alone.
  have same (hw : w'.context = w.context) (hr : r'.metrics = r.metrics) :
      w.Credits r (fun _ => 0) none w' r' :=
    .quiet (fun _ => by rw [hw]) (fun _ => by rw [hr]) (fun _ => by rw [hr])
  cases q with
  | advance => exact credits_advance sound applied (advance_of_act h).2
  | flush =>
    obtain ⟨-, heq⟩ := Prod.mk.inj (Option.some.inj h)
    obtain ⟨rfl, rfl⟩ := Prod.mk.inj heq
    exact credits_flush w r
  | account ticks =>
    have haccount := (account_of_act h).2.2
    unfold account at haccount
    split at haccount
    · exact credits_accountHardware (Option.some.inj haccount)
    · exact credits_accountSoftware (Except.ok.inj (Option.some.inj haccount))
    · cases haccount
  | retire =>
    have hretire := (eq_some_of_done h).2
    unfold retire at hretire
    split at hretire
    · cases hretire
    · split at hretire
      · obtain ⟨rfl, rfl⟩ := Prod.mk.inj (Option.some.inj hretire)
        exact same rfl rfl
      · obtain ⟨rfl, rfl⟩ := Prod.mk.inj (Option.some.inj hretire)
        exact credits_rest w r .retired
    · cases hretire
  | panic =>
    have hpanic := (eq_some_of_done h).2
    unfold panic at hpanic
    split at hpanic
    · obtain ⟨rfl, rfl⟩ := Prod.mk.inj (Option.some.inj hpanic)
      exact same rfl rfl
    · next place tx hphase =>
      cases place <;> obtain ⟨rfl, rfl⟩ := Prod.mk.inj (Option.some.inj hpanic) <;>
        exact same rfl rfl
    · cases hpanic
  | call =>
    obtain ⟨w₁, hcall, heq⟩ := Option.map_eq_some_iff.1 h
    obtain ⟨-, rfl, rfl⟩ : Reply.done = reply ∧ w₁ = w' ∧ r = r' := by simpa using heq
    unfold call at hcall
    split at hcall <;> cases hcall
    exact same rfl rfl
  | read a mask =>
    obtain ⟨⟨result, w₁⟩, hread, heq⟩ := Option.map_eq_some_iff.1 h
    obtain ⟨-, rfl, rfl⟩ : Reply.read result = reply ∧ w₁ = w' ∧ r = r' := by simpa using heq
    unfold read at hread
    split at hread
    · obtain ⟨-, rfl⟩ := Prod.mk.inj (Option.some.inj hread)
      exact same rfl rfl
    · obtain ⟨⟨result', call⟩, -, heq⟩ := Option.map_eq_some_iff.1 hread
      obtain ⟨-, rfl⟩ := Prod.mk.inj heq
      exact same rfl rfl
    · cases hread
  | write a v mask =>
    obtain ⟨⟨result, w₁⟩, hwrite, heq⟩ := Option.map_eq_some_iff.1 h
    obtain ⟨-, rfl, rfl⟩ : Reply.wrote result = reply ∧ w₁ = w' ∧ r = r' := by simpa using heq
    unfold write at hwrite
    split at hwrite <;> cases hwrite <;> exact same rfl rfl
  | abort code =>
    obtain ⟨⟨err, w₁⟩, habort, heq⟩ := Option.map_eq_some_iff.1 h
    obtain ⟨-, rfl, rfl⟩ : Reply.aborted err = reply ∧ w₁ = w' ∧ r = r' := by simpa using heq
    unfold abort at habort
    split at habort <;> cases habort
    exact same rfl rfl
  | endBody result =>
    obtain ⟨w₁, hend, heq⟩ := Option.map_eq_some_iff.1 h
    obtain ⟨-, rfl, rfl⟩ : Reply.done = reply ∧ w₁ = w' ∧ r = r' := by simpa using heq
    unfold endBody at hend
    split at hend <;> cases hend <;> exact same rfl rfl

end Worker

end HybridTM
