import HybridTM.Proofs.Escalation
import HybridTM.Proofs.TxAction
import Mathlib.Data.List.Chain

/-!
# What an exhausted attempt announces

One thread makes attempts on the software engine, single ones, ones that a call makes until it
commits, and exclusive ones, while other threads change the engine between its steps. Its bodies may
return any error at all (`Attempts`).

An attempt reports that its failures are exhausted in two cases: another attempt might have
succeeded but the bound is reached, or the error that ended it says so already, because the body
returned it. In the first case the reported number is the count of failures, it has reached the
bound, and the next attempt is serial. In the second the count stays as it was, and the next attempt
is serial only if this one was due to be (`Attempts.announced_of_reachable`). The escalations that
are counted are these reports, of either kind.
-/

set_option autoImplicit false

namespace HybridTM

/-! ## What a failure leaves in a context -/

/-- Whether an error says that the failures in a row are exhausted. -/
def TxError.saysExhausted : TxError → Bool
  | .exhausted _ => true
  | _ => false

namespace Context

variable (c : Context) (alone : Bool) (err : TxError) (attempts : Word) (bound : UInt32)
  (token : Token)

/-- What is reported of a failure. -/
theorem reported_recordAbort : (c.recordAbort err attempts bound token).1 =
    if err.isRetryable ∧ bound ≤ c.failures + 1 then .exhausted (c.failures + 1) else err := by
  unfold recordAbort
  cases err.isRetryable with
  | false => simp
  | true =>
    simp only [if_true, true_and]
    rfl

/-- Beside others an escalation is counted for whatever is reported as exhausted. -/
theorem escalations_recorded :
    (c.afterAbort alone err attempts bound token).1.tally.serialEscalations =
      c.tally.serialEscalations +
        if !alone && (c.recordAbort err attempts bound token).1.saysExhausted then 1 else 0 := by
  have hrecord : (c.recordAbort err attempts bound token).2.1.tally.serialEscalations =
      c.tally.serialEscalations := by
    unfold recordAbort
    cases err.isRetryable <;>
      exact (Tally.recordAbort_serial (c.countAttempts attempts).tally err).2
  have hnote (err : TxError) (c : Context) :
      (Call.noteExhausted alone err c).tally.serialEscalations =
        c.tally.serialEscalations + if !alone && err.saysExhausted then 1 else 0 := by
    cases err <;> cases alone <;> simp [Call.noteExhausted, countEscalation, TxError.saysExhausted]
  rw [← hrecord]
  exact hnote _ _

end Context

section

variable (c : Context) (kind : CommitKind) (attempts : Word) (token : Token)

/-- A commit sets the count of failures back. -/
theorem Context.failures_recordCommit :
    (c.recordCommit kind attempts token).1.failures = 0 := rfl

/-- A commit is no escalation. -/
theorem Context.escalations_recordCommit :
    (c.recordCommit kind attempts token).1.tally.serialEscalations = c.tally.serialEscalations :=
  (Tally.recordCommit_serial (c.countAttempts attempts).tally kind).2

end

/-- Unless it runs alone, an attempt that begins is serial just if the bound is reached. -/
theorem Call.serial_of_start {call call' : Call} {alone : Bool} {c : Context} {e e' : Engine}
    (h : call.start alone c e = some (call', e')) : e'.config = e.config ∧ call'.stage = .running ∧
      (alone = false → (call'.tx.role = .serial ↔ e.config.maxFailures ≤ c.failures)) := by
  unfold start at h
  split at h
  · next only =>
    obtain ⟨rfl, rfl⟩ := Prod.mk.inj (Option.some.inj h)
    exact ⟨rfl, rfl, fun others => absurd (only.symm.trans others) Bool.noConfusion⟩
  · obtain ⟨⟨tx, e₁⟩, hbegin, heq⟩ := Option.map_eq_some_iff.1 h
    obtain ⟨rfl, rfl⟩ := Prod.mk.inj heq
    unfold Engine.beginAttempt at hbegin
    split at hbegin
    · next due =>
      obtain ⟨⟨tx', clock⟩, hserial, heq⟩ := Option.bind_eq_some_iff.1 hbegin
      obtain ⟨rfl, rfl⟩ := Prod.mk.inj (Option.some.inj heq)
      obtain ⟨now, -, -, rfl⟩ := Transaction.beginSerial_eq_some hserial
      exact ⟨rfl, rfl, fun _ => iff_of_true rfl (of_decide_eq_true due)⟩
    · next early =>
      split at hbegin
      · obtain ⟨rfl, rfl⟩ := Prod.mk.inj (Option.some.inj hbegin)
        exact ⟨rfl, rfl, fun _ => iff_of_false nofun fun due => early (decide_eq_true due)⟩
      · cases hbegin

/-! ## Threads that make attempts -/

/-- How an attempt is made. -/
inductive AttemptWay where
  /-- By itself. -/
  | single
  /-- In a call that goes on until one commits. -/
  | looped
  /-- By a thread that runs alone. -/
  | exclusive
  deriving DecidableEq

/-- An attempt that has ended. -/
structure AttemptEntry where
  /-- How it was made. -/
  way : AttemptWay
  /-- The role in which it began. -/
  role : Role
  /-- The failures in a row before it. -/
  before : UInt32
  /-- Why it failed, if it did. -/
  cause : Option TxError
  /-- The error that was reported. -/
  reported : Option TxError
  /-- The failures in a row after it. -/
  after : UInt32
  deriving DecidableEq

/-- What a thread has done. -/
inductive AttemptEvent where
  /-- It began an attempt in a role, after so many failures in a row. -/
  | began (way : AttemptWay) (role : Role) (failures : UInt32)
  /-- The attempt ended. -/
  | ended (x : AttemptEntry)
  /-- It committed outside the engine. -/
  | notified
  /-- A panic ended the attempt. -/
  | unwound
  deriving DecidableEq

/-- An attempt that is under way. -/
structure CurrentAttempt where
  /-- How it is made. -/
  way : AttemptWay
  /-- The role in which it began. -/
  role : Role
  /-- The failures in a row before it. -/
  before : UInt32
  /-- The transaction, and where it stands. -/
  call : Call

/-- A thread on a software engine that makes attempts. -/
structure Attempts where
  /-- The engine. -/
  engine : Engine
  /-- The context of the thread. -/
  context : Context
  /-- The attempt that is under way. -/
  current : Option CurrentAttempt
  /-- What the thread has done. -/
  log : List AttemptEvent

/-- What can happen to a thread. -/
inductive AttemptAct where
  /-- It begins an attempt with some transaction. -/
  | begin (way : AttemptWay) (tx : Transaction)
  /-- The body reads. -/
  | read (a : Addr) (mask : Mask)
  /-- The body writes. -/
  | write (a : Addr) (v : Word) (mask : Mask)
  /-- The body returns. -/
  | endBody (result : Except TxError Word)
  /-- The body panics. -/
  | panic
  /-- The engine commits the attempt, or rolls it back. -/
  | advance
  /-- The thread commits outside the engine. -/
  | notify
  /-- Others leave another engine behind. -/
  | others (engine : Engine)

namespace Attempts

/-- A thread before its first attempt. -/
def start (engine : Engine) (context : Context) : Attempts := ⟨engine, context, none, []⟩

/-- What follows a step of the engine: the attempt goes on, has committed, or was rolled back. -/
def progress (t : Attempts) (x : CurrentAttempt) (context : Context) (engine : Engine) :
    CallProgress → Attempts
  | .committed _ =>
      ⟨engine, context, none,
        t.log ++ [.ended ⟨x.way, x.role, x.before, none, none, context.failures⟩]⟩
  | .going call =>
      match x.call.stage with
      | .aborting err =>
          let reported := (t.engine.abort t.context x.call.tx err).1
          ⟨engine, context, none,
            t.log ++ [.ended ⟨x.way, x.role, x.before, some err, some reported, context.failures⟩]⟩
      | _ => ⟨engine, context, some { x with call }, t.log⟩

/-- One step. -/
def act (t : Attempts) (act : AttemptAct) : Option Attempts :=
  match act, t.current with
  | .begin way tx, none =>
      (Call.start ⟨tx, .starting⟩ (way = .exclusive) t.context t.engine).map fun (call, engine) =>
        { t with
          engine
          current := some ⟨way, call.tx.role, t.context.failures, call⟩
          log := t.log ++ [.began way call.tx.role t.context.failures] }
  | .read a mask, some ⟨way, role, before, ⟨tx, .running⟩⟩ =>
      (tx.read t.engine.shared a mask).map fun (_, tx) =>
        { t with current := some ⟨way, role, before, ⟨tx, .running⟩⟩ }
  | .write a v mask, some ⟨way, role, before, ⟨tx, .running⟩⟩ =>
      some { t with current := some ⟨way, role, before, Call.write ⟨tx, .running⟩ a v mask⟩ }
  | .endBody result, some ⟨way, role, before, ⟨tx, .running⟩⟩ =>
      some { t with current := some ⟨way, role, before, Call.endBody ⟨tx, .running⟩ result⟩ }
  | .panic, some ⟨_, _, _, ⟨tx, .running⟩⟩ =>
      some { t with
        engine := t.engine.dropTransaction tx, current := none, log := t.log ++ [.unwound] }
  | .advance, some x =>
      -- Only a call that goes on until one commits counts escalations.
      (x.call.advance (x.way ≠ .looped) t.context t.engine).map fun (progress, context, engine) =>
        t.progress x context engine progress
  | .notify, none =>
      let (context, token) := t.context.notifyCommit t.engine.token
      some { t with engine := { t.engine with token }, context, log := t.log ++ [.notified] }
  | .others engine, _ => some { t with engine }
  | _, _ => none

/-- Others leave the settings alone. -/
def Allowed (t : Attempts) : AttemptAct → Prop
  | .others engine => engine.config = t.engine.config
  | _ => True

instance (t : Attempts) : (x : AttemptAct) → Decidable (t.Allowed x)
  | .others engine => inferInstanceAs (Decidable (engine.config = t.engine.config))
  | .begin _ _ | .read _ _ | .write _ _ _ | .endBody _ | .panic | .advance | .notify =>
      inferInstanceAs (Decidable True)

/-- One step that is allowed. -/
inductive Step (t : Attempts) : Attempts → Prop
  | act (x : AttemptAct) (allowed : t.Allowed x) {t' : Attempts} (acts : t.act x = some t') :
      Step t t'

/-- What steps lead to from a thread before its first attempt. -/
def Reachable (engine : Engine) (context : Context) (t : Attempts) : Prop :=
  Relation.ReflTransGen Step (start engine context) t

/-- The state after steps in the given order, if all of them are allowed and possible. -/
def run (t : Attempts) : List AttemptAct → Option Attempts
  | [] => some t
  | x :: steps => if t.Allowed x then (t.act x).bind fun t' => t'.run steps else none

end Attempts

/-! ## What is promised -/

namespace AttemptEntry

/-- The attempt failed, and another one might succeed. -/
def Retryable (x : AttemptEntry) : Prop := ∃ err, x.cause = some err ∧ err.isRetryable = true

/-- No attempt may succeed after one that ended because failures were exhausted. -/
theorem not_retryable {x : AttemptEntry} {n : UInt32} (h : x.cause = some (.exhausted n)) :
    ¬ x.Retryable := by
  rintro ⟨err, herr, hretry⟩
  obtain rfl := Option.some.inj (h.symm.trans herr)
  cases hretry

/-- A call goes on and counts an escalation. -/
def escalates (x : AttemptEntry) : Bool :=
  decide (x.way = .looped) && x.reported.any TxError.saysExhausted

/-- What holds of an attempt that has ended, under a bound on failures in a row. -/
structure Lawful (b : UInt32) (x : AttemptEntry) : Prop where
  /-- Unless it ran alone, it was serial just if the bound was reached. -/
  serial : x.way ≠ .exclusive → (x.role = .serial ↔ b ≤ x.before)
  /-- It was reported as exhausted if the error that ended it said so, or if it was one failure in a
  row more and the bound was reached. -/
  exhausted : ∀ n, x.reported = some (.exhausted n) ↔
    x.cause = some (.exhausted n) ∨ x.Retryable ∧ n = x.before + 1 ∧ b ≤ n
  /-- Otherwise the error itself was reported. -/
  reported : (∀ n, x.reported ≠ some (.exhausted n)) → x.reported = x.cause
  /-- A commit sets the count back. -/
  committed : x.cause = none → x.after = 0
  /-- A failure counts if another attempt might succeed. -/
  counted : x.Retryable → x.after = x.before + 1
  /-- Another failure does not count. -/
  passed : x.cause ≠ none → ¬ x.Retryable → x.after = x.before

theorem lawful_committed {b : UInt32} {way : AttemptWay} {role : Role} {before : UInt32}
    (serial : way ≠ .exclusive → (role = .serial ↔ b ≤ before)) :
    Lawful b ⟨way, role, before, none, none, 0⟩ where
  serial := serial
  exhausted n := iff_of_false nofun fun h => by
    rcases h with h | ⟨⟨err, h, -⟩, -⟩ <;> cases h
  reported _ := rfl
  committed _ := rfl
  counted := by
    rintro ⟨err, h, -⟩
    cases h
  passed h := absurd rfl h

theorem lawful_failed {b : UInt32} {way : AttemptWay} {role : Role} (c : Context)
    (serial : way ≠ .exclusive → (role = .serial ↔ b ≤ c.failures)) (err : TxError)
    (attempts : Word) (token : Token) :
    Lawful b ⟨way, role, c.failures, some err, some (c.recordAbort err attempts b token).1,
      if err.isRetryable then c.failures + 1 else c.failures⟩ := by
  have retryable : Retryable ⟨way, role, c.failures, some err,
      some (c.recordAbort err attempts b token).1,
      if err.isRetryable then c.failures + 1 else c.failures⟩ ↔ err.isRetryable = true := by
    constructor
    · rintro ⟨e, ⟨⟩, h⟩
      exact h
    · exact fun h => ⟨err, rfl, h⟩
  refine ⟨serial, fun n => ?_, fun h => ?_, nofun, fun h => ?_, fun _ h => ?_⟩
  · rw [retryable, c.reported_recordAbort, Option.some.injEq, Option.some.injEq]
    constructor
    · intro h
      split at h
      · next hcond =>
        obtain rfl := TxError.exhausted.inj h
        exact Or.inr ⟨hcond.1, rfl, hcond.2⟩
      · exact Or.inl h
    · rintro (rfl | ⟨hretry, rfl, hbound⟩)
      · exact if_neg fun h => Bool.noConfusion h.1
      · exact if_pos ⟨hretry, hbound⟩
  · rw [c.reported_recordAbort] at h ⊢
    split
    · next hcond =>
      rw [if_pos hcond] at h
      exact absurd rfl (h _)
    · rfl
  · exact if_pos (retryable.1 h)
  · exact if_neg fun hretry => h (retryable.2 hretry)

end AttemptEntry

/-- What an event leaves as the count of failures in a row, as far as that is part of it. -/
def AttemptEvent.Leaves (failures : UInt32) : AttemptEvent → Prop
  | .ended x => x.after = failures
  | _ => True

/-- An attempt begins with the count of failures that the one before it left. -/
def AttemptEvent.Precedes : AttemptEvent → AttemptEvent → Prop
  | .ended x, .began _ _ failures => failures = x.after
  | _, _ => True

/-- The escalations that were counted. -/
def escalated (log : List AttemptEvent) : Nat :=
  log.countP fun
    | .ended x => x.escalates
    | _ => false

namespace Attempts

/-- What holds of a thread on an engine with a bound. -/
structure Sound (b : UInt32) (c : Context) (t : Attempts) : Prop where
  /-- The engine has this bound. -/
  bound : t.engine.config.maxFailures = b
  /-- While an attempt is under way the count stays. -/
  current : ∀ x, t.current = some x → x.before = t.context.failures ∧ x.call.stage ≠ .starting ∧
    (x.way ≠ .exclusive → (x.role = .serial ↔ b ≤ x.before))
  /-- Unless it runs alone, an attempt that begins is serial just if the bound is reached. -/
  began : ∀ way role failures, .began way role failures ∈ t.log → way ≠ .exclusive →
    (role = .serial ↔ b ≤ failures)
  /-- Attempts that have ended are as they are to be. -/
  ended : ∀ x, .ended x ∈ t.log → x.Lawful b
  /-- Each begins with the count that the one before it left. -/
  linked : t.log.IsChain AttemptEvent.Precedes
  /-- The last one left the count that the context has. -/
  last : ∀ e ∈ t.log.getLast?, e.Leaves t.context.failures
  /-- The reports are counted. -/
  escalations : t.context.tally.serialEscalations =
    c.tally.serialEscalations + .ofNat (escalated t.log)

/-! ## One more event -/

section Events

variable {log : List AttemptEvent} {e : AttemptEvent} {failures : UInt32}

theorem precedes_of_leaves (h : e.Leaves failures) (way : AttemptWay) (role : Role) :
    e.Precedes (.began way role failures) := by
  cases e with
  | ended x => exact Eq.symm h
  | began | notified | unwound => trivial

theorem isChain_concat (chain : log.IsChain AttemptEvent.Precedes)
    (h : ∀ e' ∈ log.getLast?, e'.Precedes e) : (log ++ [e]).IsChain AttemptEvent.Precedes := by
  refine .append chain (.singleton e) fun e' he' e'' he'' => ?_
  obtain rfl : e = e'' := by simpa using he''
  exact h e' he'

theorem escalated_concat : escalated (log ++ [e]) = escalated log + escalated [e] :=
  List.countP_append

theorem escalated_ended (x : AttemptEntry) :
    escalated [.ended x] = if x.escalates then 1 else 0 := by
  simp [escalated, List.countP_cons]

end Events

namespace Sound

variable {b : UInt32} {c₀ c' : Context} {t t' : Attempts} {x : CurrentAttempt} {e' : Engine}
  {progress : CallProgress}

theorem start (e : Engine) (c : Context) : (start e c).Sound e.config.maxFailures c where
  bound := rfl
  current _ h := by cases h
  began _ _ _ h := absurd h List.not_mem_nil
  ended _ h := absurd h List.not_mem_nil
  linked := .nil
  last _ h := by cases h
  escalations := by simp [Attempts.start, escalated]

/-- One more event on the log. -/
theorem concat (S : t.Sound b c₀) {e : AttemptEvent} (hlog : t'.log = t.log ++ [e])
    (bound : t'.engine.config.maxFailures = b)
    (current : ∀ x, t'.current = some x → x.before = t'.context.failures ∧
      x.call.stage ≠ .starting ∧ (x.way ≠ .exclusive → (x.role = .serial ↔ b ≤ x.before)))
    (began : ∀ way role failures, e = .began way role failures → failures = t.context.failures ∧
      (way ≠ .exclusive → (role = .serial ↔ b ≤ failures)))
    (ended : ∀ x, e = .ended x → x.Lawful b) (leaves : e.Leaves t'.context.failures)
    (escalations : t'.context.tally.serialEscalations =
      t.context.tally.serialEscalations + .ofNat (escalated [e])) : t'.Sound b c₀ where
  bound := bound
  current := current
  began way role failures h := by
    rw [hlog, List.mem_append, List.mem_singleton] at h
    rcases h with h | h
    · exact S.began way role failures h
    · exact (began way role failures h.symm).2
  ended x h := by
    rw [hlog, List.mem_append, List.mem_singleton] at h
    rcases h with h | h
    · exact S.ended x h
    · exact ended x h.symm
  linked := by
    rw [hlog]
    refine isChain_concat S.linked fun e' he' => ?_
    cases e with
    | began way role failures =>
      rw [(began way role failures rfl).1]
      exact precedes_of_leaves (S.last e' he') way role
    | ended | notified | unwound => cases e' <;> trivial
  last e' he' := by
    rw [hlog, List.getLast?_concat, Option.mem_some] at he'
    exact he' ▸ leaves
  escalations := by
    rw [escalations, S.escalations, hlog, escalated_concat, UInt64.ofNat_add, UInt64.add_assoc]

/-- What happens in an attempt that goes on is not logged. -/
theorem goesOn (S : t.Sound b c₀) (hx : t.current = some x) {call : Call} {e : Engine}
    (stage : call.stage ≠ .starting) (bound : e.config.maxFailures = b) :
    Sound b c₀ ⟨e, t.context, some { x with call }, t.log⟩ where
  bound := bound
  current := by
    rintro y ⟨⟩
    exact ⟨(S.current x hx).1, stage, (S.current x hx).2.2⟩
  began := S.began
  ended := S.ended
  linked := S.linked
  last := S.last
  escalations := S.escalations

/-- An attempt begins. -/
theorem begin (S : t.Sound b c₀) {way : AttemptWay} {tx : Transaction} {call : Call}
    (h : Call.start ⟨tx, .starting⟩ (way = .exclusive) t.context t.engine = some (call, e')) :
    Sound b c₀ ⟨e', t.context, some ⟨way, call.tx.role, t.context.failures, call⟩,
      t.log ++ [.began way call.tx.role t.context.failures]⟩ := by
  obtain ⟨hconfig, hstage, hserial⟩ := Call.serial_of_start h
  rw [decide_eq_false_iff_not, S.bound] at hserial
  refine S.concat rfl (by rw [hconfig, S.bound]) ?_ ?_ (fun _ h => by cases h) trivial ?_
  · rintro y ⟨⟩
    exact ⟨rfl, by rw [hstage]; nofun, hserial⟩
  · rintro _ _ _ ⟨⟩
    exact ⟨rfl, hserial⟩
  · simp [escalated]

/-- An attempt ends. -/
theorem finish (S : t.Sound b c₀) {y : AttemptEntry} (bound : e'.config.maxFailures = b)
    (lawful : y.Lawful b) (after : y.after = c'.failures)
    (escalations : c'.tally.serialEscalations =
      t.context.tally.serialEscalations + if y.escalates then 1 else 0) :
    Sound b c₀ ⟨e', c', none, t.log ++ [.ended y]⟩ := by
  refine S.concat rfl bound (fun _ h => by cases h) (fun _ _ _ h => by cases h) ?_ after ?_
  · rintro _ ⟨⟩
    exact lawful
  · rw [escalations, escalated_ended]
    cases y.escalates <;> rfl

/-- The engine makes a step of an attempt. -/
theorem advance (S : t.Sound b c₀) (hx : t.current = some x)
    (h : x.call.advance (x.way ≠ .looped) t.context t.engine = some (progress, c', e')) :
    (t.progress x c' e' progress).Sound b c₀ := by
  obtain ⟨hbefore, hstage, hserial⟩ := S.current x hx
  obtain ⟨R, hconfig⟩ := Call.record_of_advance h
  have bound : e'.config.maxFailures = b := by rw [hconfig, S.bound]
  generalize e'.token = token, e'.shared = shared at R
  cases R with
  | exclusive stage => exact absurd stage hstage
  | optimistic stage => exact absurd stage hstage
  | serial stage => exact absurd stage hstage
  | @failed value stage err tx s fails =>
    have hprogress (call : Call) : t.progress x t.context e' (.going call) =
        ⟨e', t.context, some { x with call }, t.log⟩ := by
      rw [Attempts.progress, stage]
    rw [hprogress]
    exact S.goesOn hx nofun bound
  | @commit value stage kind tx s commits =>
    have hprogress (c' : Context) : t.progress x c' e' (.committed value) =
        ⟨e', c', none, t.log ++ [.ended ⟨x.way, x.role, x.before, none, none, c'.failures⟩]⟩ := rfl
    rw [hprogress, Context.failures_recordCommit]
    refine S.finish bound (AttemptEntry.lawful_committed hserial)
      (t.context.failures_recordCommit kind tx.lockAttempts t.engine.token).symm ?_
    rw [Context.escalations_recordCommit, if_neg (by simp [AttemptEntry.escalates]),
      UInt64.add_zero]
  | @rollback err stage =>
    have hprogress (c' : Context) (call : Call) : t.progress x c' e' (.going call) =
        ⟨e', c', none, t.log ++ [.ended ⟨x.way, x.role, x.before, some err,
          some (t.engine.abort t.context x.call.tx err).1, c'.failures⟩]⟩ := by
      rw [Attempts.progress, stage]
    have hfailures := t.context.failures_afterAbort (x.way ≠ .looped) err
      (x.call.tx.rollback t.engine.clock).1.lockAttempts t.engine.config.maxFailures t.engine.token
    have hescalations := t.context.escalations_recorded (x.way ≠ .looped) err
      (x.call.tx.rollback t.engine.clock).1.lockAttempts t.engine.config.maxFailures t.engine.token
    rw [hprogress]
    refine S.finish bound ?_ rfl ?_
    · rw [hfailures, hbefore]
      rw [hbefore] at hserial
      exact S.bound ▸ AttemptEntry.lawful_failed t.context (S.bound ▸ hserial) err _ _
    · rw [hescalations]
      simp [AttemptEntry.escalates, Engine.abort, Transaction.takeLockAttempts]

/-- A thread that is between attempts, or has panicked, leaves its count behind or sets it back. -/
theorem between (S : t.Sound b c₀) {e : AttemptEvent} (he : e = .notified ∨ e = .unwound)
    (bound : e'.config.maxFailures = b)
    (escalations : c'.tally.serialEscalations = t.context.tally.serialEscalations) :
    Sound b c₀ ⟨e', c', none, t.log ++ [e]⟩ := by
  refine S.concat rfl bound (fun _ h => by cases h) (fun _ _ _ h => ?_) (fun _ h => ?_) ?_ ?_
  · rcases he with rfl | rfl <;> cases h
  · rcases he with rfl | rfl <;> cases h
  · rcases he with rfl | rfl <;> trivial
  · rw [escalations]
    rcases he with rfl | rfl <;> simp [escalated]

/-- Every step that is allowed. -/
theorem act (S : t.Sound b c₀) {a : AttemptAct} (allowed : t.Allowed a) (h : t.act a = some t') :
    t'.Sound b c₀ := by
  unfold Attempts.act at h
  split at h
  · next way tx hcurrent =>
    obtain ⟨⟨call, engine⟩, hstart, rfl⟩ := Option.map_eq_some_iff.1 h
    exact S.begin hstart
  · next a mask way role before tx hcurrent =>
    obtain ⟨⟨result, tx'⟩, hread, rfl⟩ := Option.map_eq_some_iff.1 h
    exact S.goesOn hcurrent (fun h => by cases h) S.bound
  · next a v mask way role before tx hcurrent =>
    obtain rfl := Option.some.inj h
    exact S.goesOn hcurrent (fun h => by cases h) S.bound
  · next result way role before tx hcurrent =>
    obtain rfl := Option.some.inj h
    exact S.goesOn hcurrent (by cases result <;> exact fun h => by cases h) S.bound
  · next way role before tx hcurrent =>
    obtain rfl := Option.some.inj h
    exact S.between (Or.inr rfl) S.bound rfl
  · next x hcurrent =>
    obtain ⟨⟨progress, context, engine⟩, hadvance, rfl⟩ := Option.map_eq_some_iff.1 h
    exact S.advance hcurrent hadvance
  · next hcurrent =>
    obtain rfl := Option.some.inj h
    rw [hcurrent]
    exact S.between (Or.inl rfl) S.bound rfl
  · next engine =>
    -- What others do to memory, clock and token does not matter.
    obtain rfl := Option.some.inj h
    have hconfig : engine.config = t.engine.config := allowed
    exact { S with bound := by rw [hconfig, S.bound] }
  · cases h

end Sound

variable {e : Engine} {c : Context} {t t' : Attempts}

theorem sound_of_reachable (h : Reachable e c t) : t.Sound e.config.maxFailures c := by
  induction h with
  | refl => exact .start e c
  | tail _ hstep S =>
    obtain ⟨x, allowed, hact⟩ := hstep
    exact S.act allowed hact

/-- What reports of exhausted failures announce, under a bound on failures in a row, to a thread
that began with a context. -/
structure Announced (b : UInt32) (c : Context) (t : Attempts) : Prop where
  /-- An attempt reports that its failures are exhausted if the error that ended it said so, or if
  another attempt might have succeeded and the count of failures, which is reported, has reached the
  bound. In the first case the count stays. -/
  exhausted : ∀ x n, .ended x ∈ t.log → (x.reported = some (.exhausted n) ↔
    x.cause = some (.exhausted n) ∧ x.after = x.before ∨ x.Retryable ∧ x.after = n ∧ b ≤ n)
  /-- The next attempt, unless it runs alone, is serial in the second case, and in the first just if
  the bound was reached before. -/
  next : ∀ before x way role failures after n,
    t.log = before ++ .ended x :: .began way role failures :: after →
    x.reported = some (.exhausted n) → way ≠ .exclusive →
    (role = .serial ↔ x.Retryable ∨ b ≤ x.before)
  /-- That it was reached before means that this attempt was serial, unless it ran alone. -/
  serial : ∀ x, .ended x ∈ t.log → x.way ≠ .exclusive → (x.role = .serial ↔ b ≤ x.before)
  /-- Each report in a call is counted as an escalation, and nothing else is. -/
  escalations : t.context.tally.serialEscalations =
    c.tally.serialEscalations + .ofNat (escalated t.log)

/-- Whatever the bodies of a thread return, and whatever others do between its steps. -/
theorem announced_of_reachable (h : Reachable e c t) : t.Announced e.config.maxFailures c := by
  have S := sound_of_reachable h
  have exhausted (x : AttemptEntry) (n : UInt32) (hx : .ended x ∈ t.log) :
      x.reported = some (.exhausted n) ↔ x.cause = some (.exhausted n) ∧ x.after = x.before ∨
        x.Retryable ∧ x.after = n ∧ e.config.maxFailures ≤ n := by
    have L := S.ended x hx
    rw [L.exhausted n]
    refine or_congr ⟨fun hcause => ⟨hcause, ?_⟩, And.left⟩ (and_congr_right fun hretry => ?_)
    · exact L.passed (by rw [hcause]; exact fun h => by cases h) (AttemptEntry.not_retryable hcause)
    · rw [L.counted hretry, eq_comm]
  refine ⟨exhausted, ?_, fun x hx => (S.ended x hx).serial, S.escalations⟩
  intro before x way role failures after n hlog hreported hway
  have hx : .ended x ∈ t.log := by
    rw [hlog]
    exact List.mem_append_right _ List.mem_cons_self
  have hbegan : .began way role failures ∈ t.log := by
    rw [hlog]
    exact List.mem_append_right _ (List.mem_cons_of_mem _ List.mem_cons_self)
  -- The attempt begins with the count that the report left.
  have hlinked : failures = x.after := by
    have := S.linked
    rw [hlog, List.isChain_append_cons_cons] at this
    exact this.2.1
  rw [S.began way role failures hbegan hway, hlinked]
  rcases (exhausted x n hx).1 hreported with ⟨hcause, hafter⟩ | ⟨hretry, rfl, hbound⟩
  · rw [hafter, or_iff_right (AttemptEntry.not_retryable hcause)]
  · exact iff_of_true hbound (Or.inl hretry)

theorem steps_of_run {steps : List AttemptAct} (h : t.run steps = some t') :
    Relation.ReflTransGen Step t t' := by
  refine reflTransGen_of_run (fun _ => rfl) (fun t x steps t' h => ?_) h
  unfold run at h
  split at h
  · next allowed =>
    obtain ⟨t₁, hact, hrest⟩ := Option.bind_eq_some_iff.1 h
    exact ⟨t₁, .act x allowed hact, hrest⟩
  · cases h

/-- An engine with a bound of two failures in a row. -/
def boundOfTwo : Engine := .new ⟨2, .aggressive⟩ .zero

/-- A call whose body fails three times, first with the error of an exhausted attempt. -/
def returnedExhaustion : List AttemptAct :=
  let failing (err : TxError) : List AttemptAct :=
    [.begin .looped (.idle .zero), .endBody (.error err), .advance]
  failing (.exhausted 7) ++ failing .commitRace ++ failing .validationFailure ++
    [.begin .looped (.idle .zero)]

/-- The first attempt is reported as exhausted and counted as an escalation, but the next one is not
serial. The third one has reached the bound, and the next one is. -/
theorem announced_of_returned_exhaustion :
    ∃ t, Reachable boundOfTwo boundOfTwo.newContext t ∧
      t.log = [.began .looped .readOnly 0,
        .ended ⟨.looped, .readOnly, 0, some (.exhausted 7), some (.exhausted 7), 0⟩,
        .began .looped .readOnly 0,
        .ended ⟨.looped, .readOnly, 0, some .commitRace, some .commitRace, 1⟩,
        .began .looped .readOnly 1,
        .ended ⟨.looped, .readOnly, 1, some .validationFailure, some (.exhausted 2), 2⟩,
        .began .looped .serial 2] ∧
      t.context.tally.serialEscalations = 2 ∧ t.Announced 2 boundOfTwo.newContext := by
  have facts : ((start boundOfTwo boundOfTwo.newContext).run returnedExhaustion).map (fun t =>
      (t.log, t.context.tally.serialEscalations)) = some
        ([.began .looped .readOnly 0,
          .ended ⟨.looped, .readOnly, 0, some (.exhausted 7), some (.exhausted 7), 0⟩,
          .began .looped .readOnly 0,
          .ended ⟨.looped, .readOnly, 0, some .commitRace, some .commitRace, 1⟩,
          .began .looped .readOnly 1,
          .ended ⟨.looped, .readOnly, 1, some .validationFailure, some (.exhausted 2), 2⟩,
          .began .looped .serial 2], 2) := by
    decide +kernel
  obtain ⟨t, hrun, ht⟩ := Option.map_eq_some_iff.1 facts
  obtain ⟨hlog, hescalations⟩ := Prod.mk.inj ht
  have hreach : Reachable boundOfTwo boundOfTwo.newContext t := steps_of_run hrun
  exact ⟨t, hreach, hlog, hescalations, announced_of_reachable hreach⟩

end Attempts

end HybridTM
