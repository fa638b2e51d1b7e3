import HybridTM.Proofs.Announcements
import HybridTM.Proofs.Fallback
import HybridTM.Proofs.HourglassToken
import HybridTM.Proofs.Unwinding

/-!
# What the hourglass token holds back

Any number of threads make attempts on one engine, and their contexts may be dropped between
attempts (`EngineThreads`). Under every policy the token is held just if there is one live context
whose manager holds it, and that context keeps it until it commits or is dropped.

Meanwhile no other context begins an optimistic attempt: it would have to wait. The manager is not
asked before a serial attempt, though, so that a context whose failures have reached the bound
begins a serial one whoever holds the token, as soon as the clock is free
(`EngineThreads.serialized_of_reachable`).
-/

set_option autoImplicit false

namespace HybridTM

/-- The event is a commit, in the engine or outside it. -/
def AttemptEvent.IsCommit : AttemptEvent → Prop
  | .ended x => x.cause = none
  | .notified => True
  | .began _ _ _ | .unwound => False

/-- The thread itself acts. -/
def AttemptAct.isOwn : AttemptAct → Bool
  | .others _ => false
  | _ => true

/-- Threads that make attempts on one engine. -/
structure EngineThreads (ι : Type) where
  /-- The engine. -/
  engine : Engine
  /-- What each thread has done. The engine in it is the one that the thread left behind. -/
  thread : ι → Attempts
  /-- Whether the context of a thread was dropped. -/
  dropped : ι → Bool

/-- What can happen to them. -/
inductive ThreadAct (ι : Type) where
  /-- A thread acts. -/
  | own (i : ι) (x : AttemptAct)
  /-- The context of a thread is dropped. -/
  | drop (i : ι)
  /-- Memory and clock are changed by something that has no context. -/
  | outside (shared : Shared)

namespace EngineThreads

variable {ι : Type}

/-- Threads whose contexts are new. -/
def init (ι : Type) (config : SoftwareConfig) (memory : Memory) : EngineThreads ι where
  engine := .new config memory
  thread _ := .start (.new config memory) (Engine.new config memory).newContext
  dropped _ := false

/-- A thread as it finds the engine. -/
def view (s : EngineThreads ι) (i : ι) : Attempts := { s.thread i with engine := s.engine }

/-- The context of the thread was not dropped, and its manager holds the token. -/
def Holds (s : EngineThreads ι) (i : ι) : Prop :=
  s.dropped i = false ∧ 0 < (s.thread i).context.manager.holdings

/-- No attempt of the thread is under way, and its context was not dropped. -/
def Idle (s : EngineThreads ι) (i : ι) : Prop := s.dropped i = false ∧ (s.thread i).current = none

variable [DecidableEq ι]

/-- The state after a step of a thread. -/
def after (s : EngineThreads ι) (i : ι) (t : Attempts) : EngineThreads ι where
  engine := t.engine
  thread := Function.update s.thread i t
  dropped := s.dropped

/-- One step. -/
def step (s : EngineThreads ι) : ThreadAct ι → Option (EngineThreads ι)
  | .own i x =>
      if s.dropped i || !x.isOwn then
        none
      else
        ((s.view i).act x).map (s.after i)
  | .drop i =>
      if s.dropped i || (s.thread i).current.isSome then
        none
      else
        some { s with
          engine := s.engine.dropContext (s.thread i).context
          dropped := Function.update s.dropped i true }
  | .outside shared => some { s with engine := { s.engine with shared } }

/-- Some step. -/
def Step (s s' : EngineThreads ι) : Prop := ∃ x, s.step x = some s'

/-- What steps lead to. -/
def Reachable (config : SoftwareConfig) (memory : Memory) (s : EngineThreads ι) : Prop :=
  Relation.ReflTransGen Step (init ι config memory) s

/-- The state after steps in the given order, if all of them are possible. -/
def run (s : EngineThreads ι) : List (ThreadAct ι) → Option (EngineThreads ι)
  | [] => some s
  | x :: steps => (s.step x).bind fun s' => s'.run steps

end EngineThreads

/-! ## What is promised -/

namespace EngineThreads

variable {ι : Type}

/-- What threads do from one state to a later one, under a bound on failures in a row. -/
structure Stretch (b : UInt32) (s s' : EngineThreads ι) (new : ι → List AttemptEvent) : Prop where
  /-- The events of each thread. -/
  log : ∀ j, (s'.thread j).log = (s.thread j).log ++ new j
  /-- A context that was dropped stays so. -/
  dropped : ∀ j, s.dropped j = true → s'.dropped j = true
  /-- Who held the token still does unless it was dropped or has committed. -/
  holder : ∀ i, s.Holds i → s'.dropped i = false → (∀ e ∈ new i, ¬ e.IsCommit) → s'.Holds i
  /-- Then nobody else has begun an attempt, except serial ones after failures that had reached the
  bound, and what threads did that ran alone. -/
  others : ∀ i, s.Holds i → s'.dropped i = false → (∀ e ∈ new i, ¬ e.IsCommit) → ∀ j, j ≠ i →
    ∀ way role failures, .began way role failures ∈ new j → way ≠ .exclusive →
      role = .serial ∧ b ≤ failures

variable [DecidableEq ι]

/-- How attempts are kept apart by the token, under a bound on failures in a row. -/
structure Serialized (b : UInt32) (s : EngineThreads ι) : Prop where
  /-- The token is held just if one live context holds it. -/
  held : s.engine.token = true ↔ ∃! i, s.Holds i
  /-- A context gives it back just if it is dropped or commits. -/
  gives : ∀ i x s', s.Holds i → s.step x = some s' → (¬ s'.Holds i ↔
    s'.dropped i = true ∨ ∃ e, (s'.thread i).log = (s.thread i).log ++ [e] ∧ e.IsCommit)
  /-- An attempt can begin just if nobody else holds the token. After failures that have reached the
  bound that does not matter, and it can begin just if nobody holds the clock. -/
  begins : ∀ j way tx, s.Idle j → way ≠ .exclusive →
    ((s.step (.own j (.begin way tx))).isSome ↔
      if b ≤ (s.thread j).context.failures then s.engine.clock.isLocked = false
      else ∀ i, s.Holds i → i = j)
  /-- Whatever attempt is under way has begun; there is no other way into one. -/
  underway : ∀ i y, (s.thread i).current = some y → y.call.stage ≠ .starting
  /-- So it is in every stretch that follows. -/
  stretch : ∀ s', Relation.ReflTransGen Step s s' → ∃ new, Stretch b s s' new

end EngineThreads

/-! ## Managers -/

namespace Manager

theorem holdings_le_hourglasses (m : Manager) : m.holdings ≤ m.hourglasses := by
  induction m with
  | aggressive | backoff => exact Nat.le_refl 0
  | hourglass g => exact g.holding.toNat_le
  | compose first second name ih₁ ih₂ => exact Nat.add_le_add ih₁ ih₂

/-- Nothing is held after a commit. -/
theorem holdings_onCommit (m : Manager) (token : Token) : (m.onCommit token).1.holdings = 0 := by
  induction m generalizing token with
  | aggressive | backoff => rfl
  | hourglass g => simp [onCommit, Hourglass.onCommit, holdings]
  | compose first second name ih₁ ih₂ => simp [onCommit, holdings, ih₁, ih₂]

/-- Nothing is given back after an abort. -/
theorem holdings_le_onAbort (m : Manager) (token : Token) :
    m.holdings ≤ (m.onAbort token).1.holdings := by
  induction m generalizing token with
  | aggressive | backoff => exact Nat.le_refl 0
  | hourglass g =>
    rcases g.onAbort_cases token with ⟨hholding, -, -, habort⟩ | ⟨-, habort⟩
    · simp [onAbort, habort, holdings, hholding]
    · simp [onAbort, habort, holdings]
  | compose first second name ih₁ ih₂ => exact Nat.add_le_add (ih₁ _) (ih₂ _)

/-- An hourglass waits while another one holds the token. -/
theorem mayBegin_of_held {m : Manager} (some : 0 < m.hourglasses) (none : m.holdings = 0) :
    m.mayBegin true = false := by
  induction m with
  | aggressive | backoff => cases some
  | hourglass g =>
    have : g.holding = false := Bool.toNat_eq_zero.1 none
    rw [mayBegin, Hourglass.mayBegin, this]
    rfl
  | compose first second name ih₁ ih₂ =>
    obtain ⟨none₁, none₂⟩ := Nat.add_eq_zero_iff.1 none
    rw [mayBegin, Bool.and_eq_false_iff]
    rcases Nat.add_pos_iff_pos_or_pos.1 some with h | h
    · exact Or.inl (ih₁ h none₁)
    · exact Or.inr (ih₂ h none₂)

end Manager

/-- What passes through one manager that has one hourglass at most is a move of the token. -/
theorem TokenMove.of_holdings {token token' : Token} {n n' : Nat} (owns : n ≤ token.toNat)
    (pass : ∀ others, token.toNat = n + others → token'.toNat = n' + others) :
    TokenMove token token' (0 < n) (0 < n') := by
  have hpass := pass (token.toNat - n) (Nat.add_sub_cancel' owns).symm
  have hle := token.toNat_le
  have hle' := token'.toNat_le
  have same (h : token'.toNat = token.toNat) : token' = token := by
    cases token <;> cases token' <;> first | rfl | cases h
  rcases Nat.eq_zero_or_pos n with rfl | hn
  · rcases Nat.eq_zero_or_pos n' with rfl | hn'
    · exact .stays (same (by omega)) Iff.rfl
    · exact .taken (Bool.toNat_eq_zero.1 (by omega)) (Bool.toNat_eq_one.1 (by omega)) hn'
  · rcases Nat.eq_zero_or_pos n' with rfl | hn'
    · exact .freed hn (Bool.toNat_eq_zero.1 (by omega)) (Nat.lt_irrefl 0)
    · exact .stays (same (by omega)) (iff_of_true hn' hn)

/-! ## What a thread tells its manager -/

/-- No attempt that begins moves the token. -/
theorem Call.token_of_start {tx : Transaction} {call : Call} {alone : Bool} {c : Context}
    {e e' : Engine} (h : Call.start ⟨tx, .starting⟩ alone c e = some (call, e')) :
    e'.token = e.token := by
  obtain ⟨c', hadvance⟩ :
      ∃ c', Call.advance ⟨tx, .starting⟩ alone c e = some (.going call, c', e') :=
    ⟨c, by simp [Call.advance, h]⟩
  obtain ⟨R, -⟩ := Call.record_of_advance hadvance
  generalize e'.token = token, e'.shared = shared at R
  cases R with
  | exclusive | optimistic | serial => rfl
  | failed stage | rollback stage => cases stage

/-- An attempt begins unless it has to wait, for the clock or for the token. -/
theorem Call.isSome_start_iff (tx : Transaction) (c : Context) (e : Engine) :
    (Call.start ⟨tx, .starting⟩ false c e).isSome ↔
      if e.config.maxFailures ≤ c.failures then e.clock.isLocked = false
      else c.manager.mayBegin e.token = true := by
  have hserial : (tx.beginSerial e.clock).isSome ↔ e.clock.isLocked = false := by
    constructor
    · intro h
      obtain ⟨⟨tx', clock⟩, hbegin⟩ := Option.isSome_iff_exists.1 h
      obtain ⟨now, hnow, -⟩ := Transaction.beginSerial_eq_some hbegin
      exact (Clock.unlocked?_eq_some_iff.1 hnow).1
    · intro h
      obtain ⟨begun, hbegin⟩ := tx.exists_beginSerial h
      rw [hbegin]
      rfl
  rw [Call.start, if_neg Bool.false_ne_true, Option.isSome_map, Engine.beginAttempt,
    Context.serialDue]
  by_cases hdue : e.config.maxFailures ≤ c.failures
  · rw [if_pos (decide_eq_true hdue), if_pos hdue, ← hserial]
    cases tx.beginSerial e.clock <;> simp
  · rw [if_neg (by simpa using hdue), if_neg hdue]
    split <;> simp_all

/-- What a step of a thread tells its manager, and the events in it. -/
inductive Told (t t' : Attempts) (new : List AttemptEvent) : Prop
  /-- Nothing. -/
  | nothing (quiet : ∀ e ∈ new, ¬ e.IsCommit)
      (told : (t'.context.manager, t'.engine.token) = (t.context.manager, t.engine.token))
  /-- A commit. -/
  | commit (commits : ∃ e, new = [e] ∧ e.IsCommit)
      (told : (t'.context.manager, t'.engine.token) = t.context.manager.onCommit t.engine.token)
  /-- An abort. -/
  | abort (quiet : ∀ e ∈ new, ¬ e.IsCommit)
      (told : (t'.context.manager, t'.engine.token) = t.context.manager.onAbort t.engine.token)

/-- What a step of a thread does, and the events in it. -/
structure Acted (t t' : Attempts) (new : List AttemptEvent) : Prop where
  /-- The settings stay. -/
  config : t'.engine.config = t.engine.config
  /-- The events are logged. -/
  log : t'.log = t.log ++ new
  /-- The manager is told of them. -/
  told : Told t t' new
  /-- An attempt begins as its manager allows, or it is serial after failures that have reached the
  bound, or its thread runs alone. -/
  began : ∀ way role failures, .began way role failures ∈ new → way ≠ .exclusive →
    role = .serial ∧ t.engine.config.maxFailures ≤ failures ∨
      t.context.manager.mayBegin t.engine.token = true

namespace Attempts

variable {t t' : Attempts} {x : AttemptAct}

/-- A step without an event. -/
theorem acted_nil (config : t'.engine.config = t.engine.config) (log : t'.log = t.log)
    (told : (t'.context.manager, t'.engine.token) = (t.context.manager, t.engine.token)) :
    ∃ new, Acted t t' new :=
  ⟨[], config, by rw [log, List.append_nil], .nothing (fun _ he => absurd he List.not_mem_nil) told,
    fun _ _ _ he => absurd he List.not_mem_nil⟩

/-- A step with an event that is not the beginning of an attempt. -/
theorem acted_singleton {e : AttemptEvent} (config : t'.engine.config = t.engine.config)
    (log : t'.log = t.log ++ [e]) (told : Told t t' [e])
    (ends : ∀ way role failures, e ≠ .began way role failures) : ∃ new, Acted t t' new :=
  ⟨[e], config, log, told, fun way role failures he =>
    absurd (List.mem_singleton.1 he).symm (ends way role failures)⟩

/-- A thread begins an attempt. -/
theorem acted_begin {way : AttemptWay} {tx : Transaction} {call : Call} {e' : Engine}
    (h : Call.start ⟨tx, .starting⟩ (way = .exclusive) t.context t.engine = some (call, e')) :
    ∃ new, Acted t ⟨e', t.context, some ⟨way, call.tx.role, t.context.failures, call⟩,
      t.log ++ [.began way call.tx.role t.context.failures]⟩ new := by
  refine ⟨_, (Call.serial_of_start h).1, rfl, .nothing ?_ ?_, ?_⟩
  · intro e he
    obtain rfl := List.mem_singleton.1 he
    exact id
  · exact congrArg (t.context.manager, ·) (Call.token_of_start h)
  · intro way' role failures he hway
    obtain ⟨rfl, rfl, rfl⟩ := AttemptEvent.began.inj (List.mem_singleton.1 he)
    have others : decide (way' = .exclusive) = false := decide_eq_false hway
    by_cases hdue : t.engine.config.maxFailures ≤ t.context.failures
    · exact Or.inl ⟨((Call.serial_of_start h).2.2 others).2 hdue, hdue⟩
    · rw [others] at h
      have := (Call.isSome_start_iff tx t.context t.engine).1 (by rw [h]; rfl)
      exact Or.inr (by rwa [if_neg hdue] at this)

/-- The engine makes a step of an attempt. -/
theorem acted_advance {y : CurrentAttempt} {progress : CallProgress} {c' : Context} {e' : Engine}
    (h : y.call.advance (y.way ≠ .looped) t.context t.engine = some (progress, c', e')) :
    ∃ new, Acted t (t.progress y c' e' progress) new := by
  obtain ⟨R, hconfig⟩ := Call.record_of_advance h
  generalize htoken : e'.token = token, e'.shared = shared at R
  cases R with
  | exclusive stage | optimistic stage | serial stage | failed stage =>
    refine acted_nil ?_ ?_ ?_
    · rw [Attempts.progress, stage, hconfig]
    · rw [Attempts.progress, stage]
    · rw [Attempts.progress, stage, htoken]
  | commit stage =>
    exact acted_singleton hconfig rfl (.commit ⟨_, rfl, rfl⟩ (Prod.ext rfl htoken))
      fun _ _ _ h => by cases h
  | @rollback err stage =>
    rw [Attempts.progress, stage]
    refine acted_singleton hconfig rfl (.abort (fun e he => ?_) ?_) fun _ _ _ h => by cases h
    · obtain rfl := List.mem_singleton.1 he
      exact Option.some_ne_none err
    · rw [← Context.manager_afterAbort]
      exact Prod.ext rfl htoken

/-- Every step of a thread itself. -/
theorem acted_of_act (own : x.isOwn = true) (h : t.act x = some t') : ∃ new, Acted t t' new := by
  unfold Attempts.act at h
  split at h
  · next way tx hcurrent =>
    obtain ⟨⟨call, engine⟩, hstart, rfl⟩ := Option.map_eq_some_iff.1 h
    exact acted_begin hstart
  · next a mask way role before tx hcurrent =>
    obtain ⟨⟨result, tx'⟩, hread, rfl⟩ := Option.map_eq_some_iff.1 h
    exact acted_nil rfl rfl rfl
  · obtain rfl := Option.some.inj h
    exact acted_nil rfl rfl rfl
  · obtain rfl := Option.some.inj h
    exact acted_nil rfl rfl rfl
  · obtain rfl := Option.some.inj h
    refine acted_singleton rfl rfl (.nothing (fun e he => ?_) rfl) nofun
    obtain rfl := List.mem_singleton.1 he
    exact id
  · next y hcurrent =>
    obtain ⟨⟨progress, context, engine⟩, hadvance, rfl⟩ := Option.map_eq_some_iff.1 h
    exact acted_advance hadvance
  · obtain rfl := Option.some.inj h
    exact acted_singleton rfl rfl (.commit ⟨_, rfl, trivial⟩ rfl) nofun
  · cases own
  · cases h

end Attempts

namespace Told

variable {t t' : Attempts} {new : List AttemptEvent}

/-- Whatever a manager is told is a move of the token. -/
theorem move (T : Told t t' new) (owns : t.context.manager.holdings ≤ t.engine.token.toNat) :
    TokenMove t.engine.token t'.engine.token (0 < t.context.manager.holdings)
      (0 < t'.context.manager.holdings) := by
  cases T with
  | nothing quiet told =>
    obtain ⟨hmanager, htoken⟩ := Prod.mk.inj told
    exact .stays htoken (by rw [hmanager])
  | commit commits told =>
    obtain ⟨hmanager, htoken⟩ := Prod.mk.inj told
    rw [hmanager, htoken]
    exact .of_holdings owns (t.context.manager.passes_onCommit t.engine.token).token
  | abort quiet told =>
    obtain ⟨hmanager, htoken⟩ := Prod.mk.inj told
    rw [hmanager, htoken]
    exact .of_holdings owns (t.context.manager.passes_onAbort t.engine.token).token

theorem hourglasses (T : Told t t' new) :
    t'.context.manager.hourglasses = t.context.manager.hourglasses := by
  cases T with
  | nothing quiet told => rw [(Prod.mk.inj told).1]
  | commit commits told =>
    rw [(Prod.mk.inj told).1]
    exact (t.context.manager.passes_onCommit t.engine.token).hourglasses
  | abort quiet told =>
    rw [(Prod.mk.inj told).1]
    exact (t.context.manager.passes_onAbort t.engine.token).hourglasses

/-- Only what is told of a commit is given back. -/
theorem gives_iff (T : Told t t' new) (holds : 0 < t.context.manager.holdings) :
    ¬ 0 < t'.context.manager.holdings ↔ ∃ e, new = [e] ∧ e.IsCommit := by
  have none (quiet : ∀ e ∈ new, ¬ e.IsCommit) : ¬ ∃ e, new = [e] ∧ e.IsCommit := by
    rintro ⟨e, rfl, he⟩
    exact quiet e List.mem_cons_self he
  cases T with
  | nothing quiet told =>
    refine iff_of_false (not_not.2 ?_) (none quiet)
    rwa [(Prod.mk.inj told).1]
  | commit commits told =>
    refine iff_of_true ?_ commits
    rw [(Prod.mk.inj told).1, Manager.holdings_onCommit]
    exact Nat.lt_irrefl 0
  | abort quiet told =>
    refine iff_of_false (not_not.2 ?_) (none quiet)
    rw [(Prod.mk.inj told).1]
    exact holds.trans_le (t.context.manager.holdings_le_onAbort t.engine.token)

end Told

/-! ## Threads together -/

namespace EngineThreads

variable {ι : Type} {config : SoftwareConfig} {memory : Memory} {s s' s'' : EngineThreads ι}
  {x : ThreadAct ι} {i j : ι} {b : UInt32}

/-- What is kept by every step. -/
structure Sound (config : SoftwareConfig) (s : EngineThreads ι) : Prop where
  /-- The settings are these. -/
  settings : s.engine.config = config
  /-- The token has one owner, or none. -/
  owned : Owned s.engine.token s.Holds
  /-- All managers have as many hourglasses. -/
  hourglasses : ∀ i, (s.thread i).context.manager.hourglasses =
    config.contention.build.hourglasses

theorem Sound.init (config : SoftwareConfig) (memory : Memory) :
    (init ι config memory).Sound config where
  settings := rfl
  owned := .free fun i ⟨_, hi⟩ => by
    have hnone : 0 < config.contention.build.holdings := hi
    rw [config.contention.holdings_build] at hnone
    exact Nat.lt_irrefl 0 hnone
  hourglasses _ := rfl

namespace Sound

/-- A live context holds no more than there is. -/
theorem owns (S : s.Sound config) (live : s.dropped i = false) :
    (s.thread i).context.manager.holdings ≤ s.engine.token.toNat := by
  rcases Nat.eq_zero_or_pos (s.thread i).context.manager.holdings with hnone | hsome
  · rw [hnone]
    exact Nat.zero_le _
  · rw [S.owned.held.2 ⟨i, live, hsome⟩]
    refine (Manager.holdings_le_hourglasses _).trans ?_
    rw [S.hourglasses i]
    exact Manager.hourglasses_build config.contention

/-- The manager of a live context lets it begin just if nobody else holds the token. -/
theorem mayBegin_iff (S : s.Sound config) (live : s.dropped j = false) :
    (s.thread j).context.manager.mayBegin s.engine.token = true ↔ ∀ i, s.Holds i → i = j := by
  constructor
  · intro hbegin i hi
    by_contra hij
    have htoken : s.engine.token = true := S.owned.held.2 ⟨i, hi⟩
    have hnone : (s.thread j).context.manager.holdings = 0 := by
      by_contra hsome
      exact hij (S.owned.unique i j hi ⟨live, Nat.pos_of_ne_zero hsome⟩)
    have hsome : 0 < (s.thread j).context.manager.hourglasses := by
      rw [S.hourglasses j, ← S.hourglasses i]
      exact hi.2.trans_le (Manager.holdings_le_hourglasses _)
    rw [htoken, Manager.mayBegin_of_held hsome hnone] at hbegin
    cases hbegin
  · intro only
    have hone : (s.thread j).context.manager.hourglasses ≤ 1 := by
      rw [S.hourglasses j]
      exact Manager.hourglasses_build config.contention
    refine Manager.mayBegin_of_holdings hone (Nat.le_antisymm ?_ (S.owns live))
    cases htoken : s.engine.token with
    | false => exact Nat.zero_le _
    | true =>
      obtain ⟨i, hi⟩ := S.owned.held.1 htoken
      exact only i hi ▸ hi.2

end Sound

namespace Stretch

variable {new new' : ι → List AttemptEvent}

theorem refl (b : UInt32) (s : EngineThreads ι) : Stretch b s s fun _ => [] where
  log _ := (List.append_nil _).symm
  dropped _ h := h
  holder _ hi _ _ := hi
  others _ _ _ _ _ _ _ _ _ he := absurd he List.not_mem_nil

theorem live (T : Stretch b s s' new) (h : s'.dropped i = false) : s.dropped i = false :=
  Bool.eq_false_iff.2 fun hs => Bool.eq_false_iff.1 h (T.dropped i hs)

theorem trans (T : Stretch b s s' new) (T' : Stretch b s' s'' new') :
    Stretch b s s'' fun j => new j ++ new' j where
  log j := by rw [T'.log, T.log, List.append_assoc]
  dropped j hj := T'.dropped j (T.dropped j hj)
  holder i hi hlive quiet := by
    obtain ⟨quiet, quiet'⟩ := List.forall_mem_append.1 quiet
    exact T'.holder i (T.holder i hi (T'.live hlive) quiet) hlive quiet'
  others i hi hlive quiet j hj way role failures hbegan hway := by
    obtain ⟨quiet, quiet'⟩ := List.forall_mem_append.1 quiet
    have hi' : s'.Holds i := T.holder i hi (T'.live hlive) quiet
    rcases List.mem_append.1 hbegan with hbegan | hbegan
    · exact T.others i hi (T'.live hlive) quiet j hj way role failures hbegan hway
    · exact T'.others i hi' hlive quiet' j hj way role failures hbegan hway

end Stretch

variable [DecidableEq ι]

@[simp]
theorem thread_after_self (s : EngineThreads ι) (i : ι) (t : Attempts) :
    (s.after i t).thread i = t := by
  simp [after]

theorem thread_after_of_ne (h : j ≠ i) (t : Attempts) : (s.after i t).thread j = s.thread j := by
  simp [after, h]

theorem holds_after_of_ne (h : j ≠ i) (t : Attempts) : (s.after i t).Holds j ↔ s.Holds j := by
  rw [Holds, thread_after_of_ne h]
  exact Iff.rfl

/-- What a step is. -/
inductive Turn (s : EngineThreads ι) : ThreadAct ι → EngineThreads ι → Prop
  /-- A thread acts. -/
  | own {i : ι} {y : AttemptAct} {t : Attempts} (live : s.dropped i = false)
      (own : y.isOwn = true) (act : (s.view i).act y = some t) :
      Turn s (.own i y) (s.after i t)
  /-- A context is dropped. -/
  | drop {i : ι} (live : s.dropped i = false) :
      Turn s (.drop i) ⟨s.engine.dropContext (s.thread i).context, s.thread,
        Function.update s.dropped i true⟩
  /-- Memory and clock change. -/
  | outside (shared : Shared) :
      Turn s (.outside shared) { s with engine := { s.engine with shared } }

theorem turn_of_step (h : s.step x = some s') : s.Turn x s' := by
  cases x with
  | own i y =>
    rw [step] at h
    split at h
    · cases h
    · next hcond =>
      obtain ⟨t, hact, rfl⟩ := Option.map_eq_some_iff.1 h
      rw [Bool.or_eq_true, not_or, Bool.not_eq_true, Bool.not_eq_true', Bool.not_eq_false] at hcond
      exact .own hcond.1 hcond.2 hact
  | drop i =>
    rw [step] at h
    split at h
    · cases h
    · next hcond =>
      rw [Bool.or_eq_true, not_or, Bool.not_eq_true] at hcond
      obtain rfl := Option.some.inj h
      exact .drop hcond.1
  | outside shared =>
    obtain rfl := Option.some.inj h
    exact .outside shared

/-- Whoever holds the token gives it back when it is dropped or commits. -/
theorem gives_iff (hi : s.Holds i) (h : s.step x = some s') : ¬ s'.Holds i ↔
    s'.dropped i = true ∨ ∃ e, (s'.thread i).log = (s.thread i).log ++ [e] ∧ e.IsCommit := by
  -- A thread that did nothing and was not dropped gives nothing back.
  have keeps (hdropped : s'.dropped i = s.dropped i) (hthread : s'.thread i = s.thread i) :
      ¬ s'.Holds i ↔
        s'.dropped i = true ∨ ∃ e, (s'.thread i).log = (s.thread i).log ++ [e] ∧ e.IsCommit := by
    refine iff_of_false (not_not.2 ?_) ?_
    · rwa [Holds, hdropped, hthread]
    · rw [hdropped, hi.1, hthread]
      rintro (hgone | ⟨e, hlog, -⟩)
      · cases hgone
      · simp at hlog
  cases turn_of_step h with
  | @own j y t live own act =>
    by_cases hj : i = j
    · subst hj
      obtain ⟨new, A⟩ := Attempts.acted_of_act own act
      have hlog (e : AttemptEvent) : t.log = (s.thread i).log ++ [e] ↔ new = [e] := by
        rw [A.log]
        exact List.append_right_inj _
      have hgone : (s.after i t).dropped i = false := live
      rw [Holds, hgone, thread_after_self, eq_self_iff_true, true_and, A.told.gives_iff hi.2,
        eq_false_intro Bool.false_ne_true, false_or]
      exact exists_congr fun e => and_congr_left fun _ => (hlog e).symm
    · exact keeps rfl (thread_after_of_ne hj t)
  | @drop j live =>
    by_cases hj : i = j
    · subst hj
      exact iff_of_true (fun h => by simpa using h.1)
        (Or.inl (Function.update_self i true s.dropped))
    · exact keeps (Function.update_of_ne hj true s.dropped) rfl
  | outside shared => exact keeps rfl rfl

/-- Each thread is a thread by itself, to which the rest are others. -/
theorem reachable_view (h : Reachable config memory s) (i : ι) :
    s.engine.config = config ∧ Attempts.Reachable (.new config memory)
      (Engine.new config memory).newContext (s.view i) := by
  induction h with
  | refl => exact ⟨rfl, .refl⟩
  | @tail s₁ s₂ _ hstep ih =>
    obtain ⟨x, hstep⟩ := hstep
    obtain ⟨hconfig, hreach⟩ := ih
    have others (e : Engine) (he : e.config = s₁.engine.config) :
        Attempts.Reachable (.new config memory) (Engine.new config memory).newContext
          { s₁.thread i with engine := e } := by
      have allowed : (s₁.view i).Allowed (.others e) := he
      exact hreach.tail (.act (.others e) allowed rfl)
    cases turn_of_step hstep with
    | @own j y t live own act =>
      obtain ⟨new, A⟩ := Attempts.acted_of_act own act
      refine ⟨A.config.trans hconfig, ?_⟩
      by_cases hi : i = j
      · subst hi
        have allowed : (s₁.view i).Allowed y := by
          cases y with
          | others => cases own
          | begin | read | write | endBody | panic | advance | notify => trivial
        have hview : (s₁.after i t).view i = t := by rw [view, thread_after_self]; rfl
        rw [hview]
        exact hreach.tail (.act y allowed act)
      · rw [view, thread_after_of_ne hi]
        exact others t.engine A.config
    | drop live => exact ⟨hconfig, others _ rfl⟩
    | outside shared => exact ⟨hconfig, others _ rfl⟩

namespace Sound

theorem step (S : s.Sound config) (h : s.step x = some s') : s'.Sound config := by
  cases turn_of_step h with
  | @own i y t live own act =>
    obtain ⟨new, A⟩ := Attempts.acted_of_act own act
    refine ⟨A.config.trans S.settings, S.owned.move i (fun j hj => holds_after_of_ne hj t) ?_,
      fun j => ?_⟩
    · have M := A.told.move (S.owns live)
      simpa [Holds, after, view, live] using M
    · by_cases hj : j = i
      · subst hj
        rw [thread_after_self, A.told.hourglasses]
        exact S.hourglasses j
      · rw [thread_after_of_ne hj]
        exact S.hourglasses j
  | @drop i live =>
    refine ⟨S.settings, S.owned.move i (fun j hj => ?_) ?_, S.hourglasses⟩
    · simp only [Holds, Function.update_of_ne hj]
    · -- The context that is dropped leaves the token to the others.
      have M : TokenMove s.engine.token ((s.thread i).context.manager.drop s.engine.token)
          (0 < (s.thread i).context.manager.holdings) (0 < 0) :=
        .of_holdings (S.owns live) fun others h =>
          ((s.thread i).context.manager.toNat_drop h).trans (Nat.zero_add others).symm
      simpa [Holds, live, Engine.dropContext] using M
  | outside shared => exact ⟨S.settings, S.owned, S.hourglasses⟩

/-- What a thread does is a stretch. -/
theorem stretch_after (S : s.Sound config) {t : Attempts} {new : List AttemptEvent}
    (live : s.dropped i = false) (A : Acted (s.view i) t new) :
    Stretch config.maxFailures s (s.after i t) fun j => if j = i then new else [] where
  log j := by
    by_cases hj : j = i
    · subst hj
      rw [thread_after_self, if_pos rfl]
      exact A.log
    · rw [thread_after_of_ne hj, if_neg hj, List.append_nil]
  dropped j hj := hj
  holder k hk hlive quiet := by
    by_cases hki : k = i
    · subst hki
      rw [if_pos rfl] at quiet
      refine ⟨hlive, ?_⟩
      rw [thread_after_self]
      by_contra hnone
      obtain ⟨e, rfl, he⟩ := (A.told.gives_iff hk.2).1 hnone
      exact quiet e List.mem_cons_self he
    · exact (holds_after_of_ne hki t).2 hk
  others k hk hlive quiet j hjk way role failures hbegan hway := by
    by_cases hj : j = i
    · subst hj
      rw [if_pos rfl] at hbegan
      rcases A.began way role failures hbegan hway with hserial | hallowed
      · exact ⟨hserial.1, S.settings ▸ hserial.2⟩
      · exact absurd ((S.mayBegin_iff live).1 hallowed k hk).symm hjk
    · rw [if_neg hj] at hbegan
      exact absurd hbegan List.not_mem_nil

/-- A step is a stretch. -/
theorem stretch_step (S : s.Sound config) (h : s.step x = some s') :
    ∃ new, Stretch config.maxFailures s s' new := by
  cases turn_of_step h with
  | own live own act =>
    obtain ⟨new, A⟩ := Attempts.acted_of_act own act
    exact ⟨_, S.stretch_after live A⟩
  | @drop i live =>
    refine ⟨fun _ => [], { Stretch.refl config.maxFailures s with
      dropped := fun j hj => ?_, holder := fun k hk hlive _ => ?_, others := ?_ }⟩
    · simp [Function.update_apply, hj]
    · refine ⟨hlive, hk.2⟩
    · exact fun _ _ _ _ _ _ _ _ _ he => absurd he List.not_mem_nil
  | outside shared =>
    exact ⟨_, { Stretch.refl config.maxFailures s with }⟩

/-- Steps are a stretch. -/
theorem stretch_steps (S : s.Sound config) (h : Relation.ReflTransGen Step s s') :
    s'.Sound config ∧ ∃ new, Stretch config.maxFailures s s' new := by
  induction h with
  | refl => exact ⟨S, _, .refl _ s⟩
  | tail _ hstep ih =>
    obtain ⟨x, hstep⟩ := hstep
    obtain ⟨S', new, T⟩ := ih
    obtain ⟨new', T'⟩ := S'.stretch_step hstep
    exact ⟨S'.step hstep, _, T.trans T'⟩

/-- An attempt begins unless it has to wait. -/
theorem begins_iff (S : s.Sound config) {way : AttemptWay} (tx : Transaction) (idle : s.Idle j)
    (others : way ≠ .exclusive) : (s.step (.own j (.begin way tx))).isSome ↔
      if config.maxFailures ≤ (s.thread j).context.failures then s.engine.clock.isLocked = false
      else ∀ i, s.Holds i → i = j := by
  have hstep : (s.step (.own j (.begin way tx))).isSome =
      (Call.start ⟨tx, .starting⟩ false (s.thread j).context s.engine).isSome := by
    have hcurrent : (s.view j).current = none := idle.2
    rw [EngineThreads.step, idle.1, Bool.false_or, if_neg (by simp [AttemptAct.isOwn]),
      Option.isSome_map]
    simp only [Attempts.act, hcurrent, Option.isSome_map]
    rw [decide_eq_false others]
    rfl
  rw [hstep, Call.isSome_start_iff, S.settings, S.mayBegin_iff idle.1]

end Sound

theorem sound_of_reachable (h : Reachable config memory s) : s.Sound config :=
  ((Sound.init config memory).stretch_steps h).1

/-- In every reachable state the token holds back what it is to hold back, and serial attempts begin
all the same. -/
theorem serialized_of_reachable (h : Reachable config memory s) :
    s.Serialized config.maxFailures := by
  have S := sound_of_reachable h
  refine ⟨?_, fun i x s' hi hstep => gives_iff hi hstep,
    fun j way tx idle others => S.begins_iff tx idle others, fun i y hy => ?_,
    fun s' hsteps => (S.stretch_steps hsteps).2⟩
  · rw [S.owned.held]
    exact ⟨fun ⟨i, hi⟩ => ⟨i, hi, fun j hj => S.owned.unique j i hj hi⟩, ExistsUnique.exists⟩
  · exact ((Attempts.sound_of_reachable (reachable_view h i).2).current y hy).2.1

/-! ## A run -/

theorem steps_of_run {steps : List (ThreadAct ι)} (h : s.run steps = some s') :
    Relation.ReflTransGen Step s s' := by
  refine reflTransGen_of_run (fun _ => rfl) (fun s x steps s' h => ?_) h
  obtain ⟨s₁, hstep, hrest⟩ := Option.bind_eq_some_iff.1 h
  exact ⟨s₁, ⟨x, hstep⟩, hrest⟩

/-- Hourglasses that take the token after two aborts, and a bound of one failure in a row. -/
def hastySettings : SoftwareConfig := ⟨1, .hourglass 2⟩

/-- One thread fails once, and then another one fails twice. -/
def threeFailures : List (ThreadAct Bool) :=
  let fail (i : Bool) : List (ThreadAct Bool) :=
    [.own i (.begin .single (.idle .zero)), .own i (.endBody (.error .validationFailure)),
      .own i .advance]
  fail true ++ fail false ++ fail false

/-- The other one holds the token then, and still the first one begins a serial attempt. -/
theorem serialized_of_three_failures : ∃ s s' : EngineThreads Bool,
    Reachable hastySettings .zero s ∧ s.Holds false ∧
      s.step (.own true (.begin .single (.idle .zero))) = some s' ∧ s'.Holds false ∧
      (s'.thread true).log = (s.thread true).log ++ [.began .single .serial 1] ∧
      s.Serialized 1 := by
  let facts (s : EngineThreads Bool) : Bool × Nat :=
    (s.dropped false, (s.thread false).context.manager.holdings)
  have hfacts : ((init Bool hastySettings .zero).run threeFailures).map (fun s => (facts s,
      (s.step (.own true (.begin .single (.idle .zero)))).map fun s' => (facts s',
        decide ((s'.thread true).log = (s.thread true).log ++ [.began .single .serial 1])))) =
      some ((false, 1), some ((false, 1), true)) := by
    decide +kernel
  have holds {s : EngineThreads Bool} (h : facts s = (false, 1)) : s.Holds false := by
    obtain ⟨hlive, hone⟩ := Prod.mk.inj h
    exact ⟨hlive, by rw [hone]; exact Nat.one_pos⟩
  obtain ⟨s, hrun, hs⟩ := Option.map_eq_some_iff.1 hfacts
  obtain ⟨hholds, hs⟩ := Prod.mk.inj hs
  obtain ⟨s', hstep, hs'⟩ := Option.map_eq_some_iff.1 hs
  obtain ⟨hholds', hlog⟩ := Prod.mk.inj hs'
  have hreach : Reachable hastySettings .zero s := steps_of_run hrun
  exact ⟨s, s', hreach, holds hholds, hstep, holds hholds', of_decide_eq_true hlog,
    serialized_of_reachable hreach⟩

end EngineThreads

end HybridTM
