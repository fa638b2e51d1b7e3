import HybridTM.Proofs.Additions
import HybridTM.Proofs.Records
import HybridTM.Proofs.TxAction
import HybridTM.Proofs.WorkerTurns
import Mathlib.Algebra.Ring.Pi
import Mathlib.Data.UInt
import Mathlib.Tactic.Ring

/-!
# The books of workers

Commits, aborts and swaps are counted in the tallies of the workers and in the counters of the
store, and the hourglass token is held by a manager of some worker. What a step of a worker posts to
these books depends only on its phase (`Phase.posted`): counts move from the tally to the store and
only grow by what is posted, and the token goes around among the managers
(`Worker.posts_of_act`).
-/

set_option autoImplicit false

namespace HybridTM

open scoped UInt64.CommRing

/-! ## What is counted -/

/-- The class of an abort. -/
inductive AbortClass where
  /-- A failed validation or a lost commit race. -/
  | validation
  /-- A hardware conflict. -/
  | conflict
  /-- Too large a footprint in hardware. -/
  | capacity
  /-- An explicit hardware abort. -/
  | explicit
  /-- Any other. -/
  | other
  deriving DecidableEq, Repr

/-- The class of the abort that an error causes. -/
def TxError.abortClass : TxError → AbortClass
  | .validationFailure | .commitRace | .exhausted _ => .validation
  | .hardware abort =>
      match abort.reason with
      | .conflict => .conflict
      | .capacity => .capacity
      | .explicit _ => .explicit
      | _ => .other

/-- What is counted. -/
inductive Count where
  /-- Commits on a path. -/
  | commit (path : Path)
  /-- Optimistic commits without a write. -/
  | readOnly
  /-- Aborts of a class. -/
  | abort (cls : AbortClass)
  /-- Compare-and-swaps of the clock. -/
  | clockSwap
  /-- Swaps that take the global lock. -/
  | lockSwap
  deriving DecidableEq, Repr

/-- The name of the counter. -/
def Count.name : Count → String
  | .commit .hardware => MetricName.commitHardware
  | .commit .software => MetricName.commitSoftware
  | .commit .serial => MetricName.commitSerial
  | .commit .glock => MetricName.commitGlock
  | .readOnly => MetricName.commitReadOnly
  | .abort .validation => MetricName.abortValidation
  | .abort .conflict => MetricName.abortConflict
  | .abort .capacity => MetricName.abortCapacity
  | .abort .explicit => MetricName.abortExplicit
  | .abort .other => MetricName.abortOther
  | .clockSwap => MetricName.lockAttempts
  | .lockSwap => MetricName.glockAcquired

/-- One of a kind. -/
def Count.one (k : Count) : Count → UInt64 := fun k' => if k' = k then 1 else 0

namespace Tally

/-- What is counted in a tally. -/
def count (t : Tally) : Count → UInt64
  | .commit .hardware => t.commitsHardware
  | .commit .software => t.commitsSoftware
  | .commit .serial => t.commitsSerial
  | .commit .glock => t.commitsGlock
  | .readOnly => t.commitsReadOnly
  | .abort .validation => t.abortsValidation
  | .abort .conflict => t.abortsConflict
  | .abort .capacity => t.abortsCapacity
  | .abort .explicit => t.abortsExplicit
  | .abort .other => t.abortsOther
  | .clockSwap => t.lockAttempts
  | .lockSwap => t.glockAcquisitions

theorem mem_named (t : Tally) (k : Count) : (k.name, t.count k) ∈ t.named := by
  cases k with
  | commit path => cases path <;> simp [named, Count.name, count]
  | abort cls => cases cls <;> simp [named, Count.name, count]
  | readOnly => simp [named, Count.name, count]
  | clockSwap => simp [named, Count.name, count]
  | lockSwap => simp [named, Count.name, count]

theorem count_zero (k : Count) : zero.count k = 0 := by
  cases k with
  | commit path => cases path <;> rfl
  | abort cls => cases cls <;> rfl
  | readOnly => rfl
  | clockSwap => rfl
  | lockSwap => rfl

/-- An abort counts once, under its class. -/
theorem count_recordAbort (t : Tally) (err : TxError) (k : Count) :
    (t.recordAbort err).count k = t.count k + Count.one (.abort err.abortClass) k := by
  cases err with
  | hardware abort =>
    obtain ⟨reason, mayRetry⟩ := abort
    cases reason <;> rcases k with (_ | _ | _ | _) | _ | (_ | _ | _ | _ | _) | _ | _ <;>
      simp [recordAbort, TxError.abortClass, count, Count.one]
  | _ =>
    rcases k with (_ | _ | _ | _) | _ | (_ | _ | _ | _ | _) | _ | _ <;>
      simp [recordAbort, TxError.abortClass, count, Count.one]

end Tally

/-- The path of a commit. -/
def CommitKind.path : CommitKind → Path
  | .readOnly | .readWrite => .software
  | .serial => .serial
  | .exclusive => .glock

/-- What a commit counts as. -/
def CommitKind.posted (kind : CommitKind) : Count → UInt64 := fun k =>
  Count.one (.commit kind.path) k + if kind = .readOnly then Count.one .readOnly k else 0

theorem Tally.count_recordCommit (t : Tally) (kind : CommitKind) (k : Count) :
    (t.recordCommit kind).count k = t.count k + kind.posted k := by
  cases kind <;> rcases k with (_ | _ | _ | _) | _ | (_ | _ | _ | _ | _) | _ | _ <;>
    simp [recordCommit, CommitKind.posted, CommitKind.path, count, Count.one]

/-- So many swaps of the clock. -/
def Count.swaps (n : Word) : Count → UInt64 := fun k => if k = .clockSwap then n else 0

theorem Context.count_countAttempts (c : Context) (n : Word) (k : Count) :
    (c.countAttempts n).tally.count k = c.tally.count k + Count.swaps n k := by
  rcases k with (_ | _ | _ | _) | _ | (_ | _ | _ | _ | _) | _ | _ <;>
    simp [countAttempts, Tally.count, Count.swaps]

/-! ## The store -/

/-- A flush moves every count to its counter. -/
theorem Tally.counter_flush (t : Tally) (m : Metrics) (k : Count) :
    (t.flush m).2.counter k.name = m.counter k.name + t.count k :=
  t.counter_flush_of_mem m (t.mem_named k)

/-! ## The token -/

namespace Manager

/-- How often a manager holds the hourglass token. -/
def holdings : Manager → Nat
  | .hourglass h => h.holding.toNat
  | .compose first second _ => first.holdings + second.holdings
  | .aggressive | .backoff _ => 0

/-- How many hourglasses a manager consists of. -/
def hourglasses : Manager → Nat
  | .hourglass _ => 1
  | .compose first second _ => first.hourglasses + second.hourglasses
  | .aggressive | .backoff _ => 0

/-- The token goes around: however often others hold it, it is free beside what they and the manager
hold. -/
structure Passes (m : Manager) (token : Token) (m' : Manager) (token' : Token) : Prop where
  /-- Who held it besides still does. -/
  token : ∀ others, token.toNat = m.holdings + others → token'.toNat = m'.holdings + others
  /-- The manager still consists of the same hourglasses. -/
  hourglasses : m'.hourglasses = m.hourglasses

namespace Passes

variable {m m' first first' second second' : Manager} {token token' token'' : Token}

theorem refl (m : Manager) (token : Token) : m.Passes token m token := ⟨fun _ h => h, rfl⟩

/-- The token goes through two managers one after the other. -/
theorem compose (P : first.Passes token first' token') (Q : second.Passes token' second' token'')
    (name : String) :
    (Manager.compose first second name).Passes token (.compose first' second' name) token'' where
  token others h := by
    have hfirst := P.token (second.holdings + others) (by rw [h, holdings, Nat.add_assoc])
    have hsecond := Q.token (first'.holdings + others) (by omega)
    rw [hsecond, holdings]
    omega
  hourglasses := by rw [Manager.hourglasses, P.hourglasses, Q.hourglasses]; rfl

end Passes

/-- Whoever gives the token back leaves it to the others. -/
theorem toNat_release (g : Hourglass) {token : Token} {others : Nat}
    (h : token.toNat = g.holding.toNat + others) : (g.release token).2.toNat = others := by
  rw [Hourglass.token_release]
  cases hholding : g.holding with
  | false => rwa [hholding, Bool.toNat_false, Nat.zero_add] at h
  | true =>
    have := token.toNat_le
    rw [hholding, Bool.toNat_true] at h
    show 0 = others
    omega

/-- A manager that is dropped gives back what it holds. -/
theorem toNat_drop (m : Manager) {token : Token} {others : Nat}
    (h : token.toNat = m.holdings + others) : (m.drop token).toNat = others := by
  induction m generalizing token others with
  | aggressive => rwa [holdings, Nat.zero_add] at h
  | backoff b => rwa [holdings, Nat.zero_add] at h
  | hourglass g => exact toNat_release g h
  | compose first second name ih₁ ih₂ =>
    rw [holdings, Nat.add_assoc] at h
    exact ih₂ (ih₁ h)

/-- So does a manager that is told of a commit. -/
theorem passes_onCommit (m : Manager) (token : Token) :
    m.Passes token (m.onCommit token).1 (m.onCommit token).2 := by
  induction m generalizing token with
  | aggressive => exact .refl _ _
  | backoff b => exact ⟨fun _ h => h, rfl⟩
  | hourglass g =>
    refine ⟨fun others h => ?_, rfl⟩
    have hfree : ({ g with aborts := 0 }.release token).2.toNat = others := toNat_release _ h
    simp only [onCommit, Hourglass.onCommit, holdings, Hourglass.holding_release, hfree,
      Bool.toNat_false, Nat.zero_add]
  | compose first second name ih₁ ih₂ => exact (ih₁ _).compose (ih₂ _) name

/-- A manager that is told of an abort takes the token only while nobody holds it. -/
theorem passes_onAbort (m : Manager) (token : Token) :
    m.Passes token (m.onAbort token).1 (m.onAbort token).2 := by
  induction m generalizing token with
  | aggressive => exact .refl _ _
  | backoff b => exact ⟨fun _ h => h, rfl⟩
  | hourglass g =>
    refine ⟨fun others h => ?_, rfl⟩
    simp only [onAbort, Hourglass.onAbort]
    rw [holdings] at h
    cases htake : (!g.holding && _ && !token) with
    | true =>
      simp only [Bool.and_eq_true, Bool.not_eq_true'] at htake
      simp only [htake.1.1, htake.2, Bool.toNat_false] at h
      simp only [if_true, holdings, Bool.toNat_true]
      omega
    | false => exact h
  | compose first second name ih₁ ih₂ => exact (ih₁ _).compose (ih₂ _) name

end Manager

/-! ## What steps post -/

/-- Whether the worker was dropped. -/
def Phase.isRetired : Phase → Bool
  | .resting (some .retired) => true
  | _ => false

theorem Phase.eq_of_isRetired {p : Phase} (h : p.isRetired = true) :
    p = .resting (some .retired) := by
  unfold isRetired at h
  split at h
  · rfl
  · cases h

namespace Worker

/-- How often a worker holds the hourglass token. Who was dropped does not. -/
def holdings (w : Worker) : Nat :=
  if w.phase.isRetired then 0 else w.context.manager.holdings

/-- Who was dropped holds no counts. -/
def Emptied (w : Worker) : Prop := w.phase.isRetired = true → ∀ k, w.context.tally.count k = 0

/-- A worker that was not dropped may hold counts. -/
theorem emptied_of_alive {w : Worker} (h : w.phase.isRetired = false) : w.Emptied :=
  fun hretired => absurd (h.symm.trans hretired) Bool.false_ne_true

/-- A step of a worker posts to the books. -/
structure Posts (w : Worker) (r : Runtime) (n : Count → UInt64) (w' : Worker) (r' : Runtime) :
    Prop where
  /-- What is counted in the tally and in the store grows by what is posted. -/
  counts : ∀ k, r'.metrics.counter k.name + w'.context.tally.count k =
    r.metrics.counter k.name + w.context.tally.count k + n k
  /-- Who held the token besides still does. -/
  token : ∀ others, r.engine.token.toNat = w.holdings + others →
    r'.engine.token.toNat = w'.holdings + others
  /-- Whoever is dropped has given up its counts. -/
  emptied : w.Emptied → w'.Emptied
  /-- The manager still consists of the same hourglasses. -/
  hourglasses : w'.context.manager.hourglasses = w.context.manager.hourglasses
  /-- The settings stay. -/
  config : r'.config = r.config ∧ r'.engine.config = r.engine.config

namespace Posts

variable {w w₁ w' : Worker} {r r₁ r' : Runtime} {n m : Count → UInt64}

/-- A step that leaves the context, the counters and the token alone. -/
theorem quiet (context : w'.context = w.context) (alive : w'.phase.isRetired = w.phase.isRetired)
    (counter : ∀ name, r'.metrics.counter name = r.metrics.counter name)
    (token : r'.engine.token = r.engine.token)
    (config : r'.config = r.config ∧ r'.engine.config = r.engine.config) :
    w.Posts r (fun _ => 0) w' r' where
  counts k := by rw [context, counter, add_zero]
  token others h := by rw [token, h, holdings, holdings, context, alive]
  emptied h := by rwa [Emptied, alive, context]
  hourglasses := by rw [context]
  config := config

theorem trans (P : w.Posts r n w₁ r₁) (Q : w₁.Posts r₁ m w' r') :
    w.Posts r (fun k => n k + m k) w' r' where
  counts k := by rw [Q.counts, P.counts, add_assoc]
  token others h := Q.token others (P.token others h)
  emptied h := Q.emptied (P.emptied h)
  hourglasses := Q.hourglasses.trans P.hourglasses
  config := ⟨Q.config.1.trans P.config.1, Q.config.2.trans P.config.2⟩

/-- The same step posts the same. -/
theorem congr (P : w.Posts r n w' r') (h : ∀ k, n k = m k) : w.Posts r m w' r' :=
  { P with counts := fun k => by rw [P.counts, h] }

end Posts

variable {w w' : Worker} {r r' : Runtime}

/-- A change of the tally by what is posted. -/
theorem posts_modifyTally (w : Worker) (r : Runtime) (alive : w.phase.isRetired = false)
    {f : Tally → Tally} {n : Count → UInt64} (h : ∀ t k, (f t).count k = t.count k + n k) :
    w.Posts r n (w.modifyTally f) r where
  counts k := by
    show _ + (f w.context.tally).count k = _
    rw [h, add_assoc]
  token others h := h
  emptied _ := emptied_of_alive alive
  hourglasses := rfl
  config := ⟨rfl, rfl⟩

theorem posts_flush (w : Worker) (r : Runtime) :
    w.Posts r (fun _ => 0) (w.flush r).1 (w.flush r).2 where
  counts k := by
    show (w.context.tally.flush r.metrics).2.counter k.name + Tally.zero.count k = _
    rw [Tally.counter_flush, Tally.count_zero]
  token others h := h
  emptied _ _ := Tally.count_zero
  hourglasses := rfl
  config := ⟨rfl, rfl⟩

/-- Who retires moves the tally into the store and gives the token back. -/
theorem posts_rest (w : Worker) (r : Runtime) (ending : Ending)
    (alive : w.phase.isRetired = false) :
    w.Posts r (fun _ => 0) (w.rest r ending).1 (w.rest r ending).2 := by
  cases ending with
  | returned value => exact .quiet rfl alive.symm (fun _ => rfl) rfl ⟨rfl, rfl⟩
  | unwound => exact .quiet rfl alive.symm (fun _ => rfl) rfl ⟨rfl, rfl⟩
  | retired =>
    have P := posts_flush (w.goto (.resting (some .retired))) r
    refine ⟨P.counts, fun others h => ?_, fun _ _ => Tally.count_zero, rfl, ⟨rfl, rfl⟩⟩
    rw [holdings, if_neg (by rw [alive]; exact Bool.false_ne_true)] at h
    have hdrop := Manager.toNat_drop _ h
    exact hdrop.trans (Nat.zero_add _).symm

/-! ### Errands -/

theorem posts_countToSoftware (w : Worker) (r : Runtime) (alive : w.phase.isRetired = false) :
    w.Posts r (fun _ => 0) w.countToSoftware r := by
  refine posts_modifyTally w r alive fun t k => ?_
  rcases k with (_ | _ | _ | _) | _ | (_ | _ | _ | _ | _) | _ | _ <;> simp [Tally.count]

theorem posts_countToHardware (w : Worker) (r : Runtime) (alive : w.phase.isRetired = false) :
    w.Posts r (fun _ => 0) w.countToHardware r := by
  refine posts_modifyTally w r alive fun t k => ?_
  rcases k with (_ | _ | _ | _) | _ | (_ | _ | _ | _ | _) | _ | _ <;> simp [Tally.count]

theorem posts_countLock (w : Worker) (r : Runtime) (alive : w.phase.isRetired = false) :
    w.Posts r (Count.one .lockSwap) w.countLock r := by
  refine posts_modifyTally w r alive fun t k => ?_
  rcases k with (_ | _ | _ | _) | _ | (_ | _ | _ | _ | _) | _ | _ <;>
    simp [Tally.count, Count.one]

theorem posts_countHardwareCommit (w : Worker) (r : Runtime) (alive : w.phase.isRetired = false) :
    w.Posts r (Count.one (.commit .hardware)) w.countHardwareCommit r := by
  refine posts_modifyTally w r alive fun t k => ?_
  rcases k with (_ | _ | _ | _) | _ | (_ | _ | _ | _ | _) | _ | _ <;>
    simp [Tally.count, Count.one]

/-- To go to another phase posts nothing. -/
theorem posts_goto (w : Worker) (r : Runtime) (alive : w.phase.isRetired = false) {p : Phase}
    (hp : p.isRetired = false) : w.Posts r (fun _ => 0) (w.goto p) r :=
  .quiet rfl (hp.trans alive.symm) (fun _ => rfl) rfl ⟨rfl, rfl⟩

/-- So does to come to rest after the end of an epoch, whether or not the worker counts it. -/
theorem posts_departure (w : Worker) (r : Runtime) (alive : w.phase.isRetired = false)
    (counted : Bool) (ending : Ending) :
    w.Posts r (fun _ => 0) ((if counted then w.countToHardware else w).rest r ending).1
      ((if counted then w.countToHardware else w).rest r ending).2 := by
  cases counted with
  | false => exact posts_rest w r ending alive
  | true =>
    exact .congr ((posts_countToHardware w r alive).trans
      (posts_rest w.countToHardware r ending alive)) fun _ => add_zero _

end Worker

/-- What an errand posts when it is over, depending on whether it changed the mode word. -/
def Errand.posted (changed : Bool) : Errand → Count → UInt64
  | .lock _ => fun k => if changed then Count.one .lockSwap k else 0
  | _ => fun _ => 0

/-- What a step of an errand posts. -/
def SwapStage.posted (errand : Errand) (s : Shared) : SwapStage → Count → UInt64
  | .load => fun _ => 0
  | .swap seen next =>
      errand.posted (s.memory.read Runtime.modeAddr = seen.encode ∧ seen.mode = next.mode)
  | .announce _ _ => errand.posted true

theorem Errand.posted_false (errand : Errand) (k : Count) : errand.posted false k = 0 := by
  cases errand <;> rfl

namespace Worker

variable {w w' : Worker} {r r' : Runtime}

theorem posts_afterErrand (alive : w.phase.isRetired = false) {errand : Errand}
    {change : Option (ModeSnapshot × ModeSnapshot)}
    (h : w.afterErrand r errand change = .ok (w', r')) :
    w.Posts r (errand.posted change.isSome) w' r' := by
  cases errand with
  | register failures =>
    cases change <;> obtain ⟨rfl, rfl⟩ := Prod.mk.inj (Except.ok.inj h) <;>
      exact posts_goto w r alive rfl
  | flip failures =>
    obtain ⟨heuristic, -, heq⟩ := exists_of_map_eq_ok h
    obtain ⟨rfl, rfl⟩ := Prod.mk.inj heq
    cases change with
    | none => exact .quiet rfl alive.symm (fun _ => rfl) rfl ⟨rfl, rfl⟩
    | some change =>
      exact .congr ((posts_countToSoftware w r alive).trans
        (.quiet rfl alive.symm (fun _ => rfl) rfl ⟨rfl, rfl⟩)) fun _ => add_zero _
  | join failures =>
    cases change <;> obtain ⟨rfl, rfl⟩ := Prod.mk.inj (Except.ok.inj h) <;>
      exact posts_goto w r alive rfl
  | lock failures =>
    cases change with
    | none =>
      obtain ⟨rfl, rfl⟩ := Prod.mk.inj (Except.ok.inj h)
      exact posts_goto w r alive rfl
    | some change =>
      obtain ⟨rfl, rfl⟩ := Prod.mk.inj (Except.ok.inj h)
      exact .congr ((posts_countLock w r alive).trans (posts_goto w.countLock r alive rfl))
        fun _ => add_zero _
  | leave ending =>
    obtain ⟨rfl, rfl⟩ := Prod.mk.inj (Except.ok.inj h)
    exact posts_departure w r alive _ ending
  | endEpoch ending =>
    obtain ⟨rfl, rfl⟩ := Prod.mk.inj (Except.ok.inj h)
    exact posts_departure w r alive _ ending
  | unlock ending =>
    obtain ⟨rfl, rfl⟩ := Prod.mk.inj (Except.ok.inj h)
    exact posts_rest w r ending alive

theorem posts_advanceErrand {errand : Errand} {stage : SwapStage}
    (hphase : w.phase = .switching errand stage)
    (h : w.advanceErrand r errand stage = .ok (w', r')) :
    w.Posts r (stage.posted errand r.engine.shared) w' r' := by
  have alive : w.phase.isRetired = false := by rw [hphase]; rfl
  cases stage with
  | load =>
    unfold advanceErrand at h
    simp only at h
    split at h
    · obtain ⟨rfl, rfl⟩ := Prod.mk.inj (Except.ok.inj h)
      exact posts_goto w r alive rfl
    · exact (posts_afterErrand alive h).congr errand.posted_false
  | swap seen next =>
    rcases hswap : r.swapMode seen next with ⟨swapped, r₁⟩
    -- A swap changes memory and backend only.
    have kept : w.Posts r (fun _ => 0) w r₁ := by
      obtain ⟨-, rfl⟩ := Prod.mk.inj hswap
      exact .quiet rfl rfl (fun _ => rfl) rfl ⟨rfl, rfl⟩
    simp only [advanceErrand, hswap] at h
    have hposted (changed : Bool)
        (hchanged : changed = decide (swapped = true ∧ seen.mode = next.mode)) (k : Count) :
        0 + errand.posted changed k =
          (SwapStage.swap seen next).posted errand r.engine.shared k := by
      rw [zero_add, hchanged, SwapStage.posted]
      rcases Runtime.swapMode_cases hswap with ⟨rfl, hfound, -⟩ | ⟨rfl, hlost, -⟩
      · have hread : r.engine.shared.memory.read Runtime.modeAddr = seen.encode := hfound
        simp only [hread, true_and]
      · have hread : r.engine.shared.memory.read Runtime.modeAddr ≠ seen.encode := hlost
        simp only [hread, false_and, Bool.false_eq_true]
    cases swapped with
    | true =>
      rw [if_pos rfl] at h
      split at h
      · next hmode =>
        refine (kept.trans (posts_afterErrand alive h)).congr (hposted _ ?_)
        simp [hmode]
      · next hmode =>
        obtain ⟨rfl, rfl⟩ := Prod.mk.inj (Except.ok.inj h)
        refine (kept.trans (posts_goto w r₁ alive rfl)).congr fun k => ?_
        rw [← hposted false (by simp [hmode]) k, Errand.posted_false]
    | false =>
      rw [if_neg Bool.false_ne_true] at h
      split at h
      · obtain ⟨rfl, rfl⟩ := Prod.mk.inj (Except.ok.inj h)
        refine (kept.trans (posts_goto w r₁ alive rfl)).congr fun k => ?_
        rw [← hposted false (by simp) k, Errand.posted_false]
      · exact (kept.trans (posts_afterErrand alive h)).congr (hposted _ (by simp))
  | announce seen next =>
    -- The gauge is no counter.
    have kept : w.Posts r (fun _ => 0) w (r.showMode next.mode) :=
      .quiet rfl rfl (fun _ => rfl) rfl ⟨rfl, rfl⟩
    exact (kept.trans (posts_afterErrand alive h)).congr fun _ => zero_add _

end Worker

/-! ### Software calls -/

/-- What a step of a software call posts: the end of an attempt, with the swaps of the clock that it
has collected. -/
def Call.posted (call : Call) (s : Shared) : Count → UInt64 :=
  match call.stage with
  | .committing _ =>
      match call.tx.commit s with
      | some (.ok kind, tx, _) => fun k => kind.posted k + Count.swaps tx.lockAttempts k
      | _ => fun _ => 0
  | .aborting err => fun k =>
      Count.one (.abort err.abortClass) k + Count.swaps call.tx.lockAttempts k
  | _ => fun _ => 0

namespace Worker

variable {w w' : Worker} {r r' : Runtime}

/-- An escalation is not counted here. -/
theorem count_withEscalations (t : Tally) (n : UInt64) (k : Count) :
    (t.withEscalations n).count k = t.count k := by
  rcases k with (_ | _ | _ | _) | _ | (_ | _ | _ | _ | _) | _ | _ <;> rfl

theorem posts_record {place : Place} {call : Call} (hphase : w.phase = .software place call)
    {alone : Bool} {progress : CallProgress} {c : Context} {e : Engine} {s : Shared}
    (R : Call.Record call alone w.context r.engine progress c e.token s)
    (hconfig : e.config = r.engine.config) :
    w.Posts r (call.posted r.engine.shared) { w with context := c } { r with engine := e } := by
  have alive : w.phase.isRetired = false := by rw [hphase]; rfl
  -- What a manager passes on, its worker does.
  have token {m : Manager} {t : Token} (P : w.context.manager.Passes r.engine.token m t)
      (ht : e.token = t) (hm : c.manager = m) (others : Nat)
      (h : r.engine.token.toNat = w.holdings + others) : e.token.toNat =
        ({ w with context := c } : Worker).holdings + others := by
    rw [holdings, if_neg (by rw [alive]; exact Bool.false_ne_true)] at h ⊢
    rw [ht, hm]
    exact P.token others h
  generalize htoken : e.token = t at R
  cases R with
  | exclusive stage only =>
    refine .congr (.quiet rfl rfl (fun _ => rfl) htoken ⟨rfl, hconfig⟩) fun k => ?_
    rw [Call.posted, stage]
  | optimistic stage others early allowed =>
    refine .congr (.quiet rfl rfl (fun _ => rfl) htoken ⟨rfl, hconfig⟩) fun k => ?_
    rw [Call.posted, stage]
  | serial stage others due begins =>
    refine .congr (.quiet rfl rfl (fun _ => rfl) htoken ⟨rfl, hconfig⟩) fun k => ?_
    rw [Call.posted, stage]
  | failed stage fails =>
    refine .congr (.quiet rfl rfl (fun _ => rfl) htoken ⟨rfl, hconfig⟩) fun k => ?_
    simp only [Call.posted, stage, fails]
  | @commit value stage kind tx s commits =>
    have P := Manager.passes_onCommit w.context.manager r.engine.token
    refine ⟨fun k => ?_, token P htoken rfl, fun _ => emptied_of_alive alive, P.hourglasses,
      ⟨rfl, hconfig⟩⟩
    simp only [Call.posted, stage, commits]
    show _ + ((w.context.countAttempts tx.lockAttempts).tally.recordCommit kind).count k = _
    rw [Tally.count_recordCommit, Context.count_countAttempts]
    ring
  | @rollback err stage =>
    have P := Manager.passes_onAbort w.context.manager r.engine.token
    have hmanager := w.context.manager_afterAbort alone err
      (call.tx.rollback r.engine.clock).1.lockAttempts r.engine.config.maxFailures r.engine.token
    obtain ⟨hmanager, htoken'⟩ := Prod.mk.inj hmanager
    refine ⟨fun k => ?_, token P (htoken.trans htoken') hmanager,
      fun _ => emptied_of_alive alive, by rw [hmanager, P.hourglasses], ⟨rfl, hconfig⟩⟩
    obtain ⟨n, htally⟩ := w.context.tally_afterAbort alone err
      (call.tx.rollback r.engine.clock).1.lockAttempts r.engine.config.maxFailures r.engine.token
    simp only [htally, count_withEscalations, Tally.count_recordAbort,
      Context.count_countAttempts]
    simp only [Call.posted, stage, Transaction.lockAttempts_rollback]
    ring

theorem posts_advanceSoftware {place : Place} {call : Call}
    (hphase : w.phase = .software place call) (h : w.advanceSoftware r place call = some (w', r')) :
    w.Posts r (call.posted r.engine.shared) w' r' := by
  obtain ⟨⟨progress, context, engine⟩, hcall, heq⟩ := Option.map_eq_some_iff.1 h
  obtain ⟨R, hconfig⟩ := Call.record_of_advance hcall
  have P := posts_record hphase R hconfig
  have alive : w.phase.isRetired = false := by rw [hphase]; rfl
  cases progress with
  | going call' =>
    obtain ⟨rfl, rfl⟩ := Prod.mk.inj heq
    exact .congr (P.trans (.quiet rfl alive.symm (fun _ => rfl) rfl ⟨rfl, rfl⟩))
      fun _ => add_zero _
  | committed value =>
    obtain ⟨rfl, rfl⟩ := Prod.mk.inj heq
    cases place <;>
      exact .congr (P.trans (.quiet rfl alive.symm (fun _ => rfl) rfl ⟨rfl, rfl⟩))
        fun _ => add_zero _

/-! ### Hardware -/

theorem posts_observeSample (w : Worker) (r : Runtime) (sample : Option HardwareSample) :
    w.Posts r (fun _ => 0) w (observeSample r sample) := by
  unfold observeSample
  split
  · split
    · exact .quiet rfl rfl (fun _ => rfl) rfl ⟨rfl, rfl⟩
    · exact .quiet rfl rfl (fun _ => rfl) rfl ⟨rfl, rfl⟩
  · exact .quiet rfl rfl (fun _ => rfl) rfl ⟨rfl, rfl⟩

end Worker

/-- What the end of a hardware execution posts when it is accounted for. -/
def hardwarePosted : Except HardwareAbort Word → Count → UInt64
  | .ok _ => Count.one (.commit .hardware)
  | .error abort => Count.one (.abort (TxError.hardware abort).abortClass)

namespace Worker

variable {w w' : Worker} {r r' : Runtime}

theorem posts_accountHardware (alive : w.phase.isRetired = false) {failures : UInt32}
    {result : Except HardwareAbort Word} {ticks : UInt64}
    (h : w.accountHardware r failures result ticks = .ok (w', r')) :
    w.Posts r (hardwarePosted result) w' r' := by
  cases result with
  | ok value =>
    obtain ⟨sample, -, rfl, rfl⟩ := accountHardware_ok h
    -- The commit is counted, and the manager hears of it.
    have P := Manager.passes_onCommit w.context.manager r.engine.token
    have counted := posts_countHardwareCommit w r alive
    have notified : w.countHardwareCommit.Posts r (fun _ => 0)
        { w.countHardwareCommit with
          context := (w.countHardwareCommit.context.notifyCommit r.engine.token).1 }
        { r with engine := { r.engine with
          token := (w.countHardwareCommit.context.notifyCommit r.engine.token).2 } } := by
      refine ⟨fun _ => (add_zero _).symm, fun others h => ?_, fun _ => emptied_of_alive alive,
        P.hourglasses, ⟨rfl, rfl⟩⟩
      rw [holdings, if_neg (by exact alive ▸ Bool.false_ne_true)] at h ⊢
      exact P.token others h
    exact .congr ((counted.trans notified).trans ((posts_observeSample _ _ _).trans
      (.quiet rfl alive.symm (fun _ => rfl) rfl ⟨rfl, rfl⟩))) fun _ => by simp [hardwarePosted]
  | error abort =>
    have counted : w.Posts r (Count.one (.abort (TxError.hardware abort).abortClass))
        (w.modifyTally (·.recordAbort (.hardware abort))) r :=
      posts_modifyTally w r alive fun t k => t.count_recordAbort _ k
    rcases accountHardware_error h with ⟨-, rfl, rfl⟩ | ⟨-, sample, favors, -, -, rfl, rfl⟩
    · exact .congr (counted.trans (.quiet rfl alive.symm (fun _ => rfl) rfl ⟨rfl, rfl⟩))
        fun _ => add_zero _
    · -- Wherever the failure leads, the worker only goes there.
      have target : (failureTarget favors (observeSample r sample).config.maxRetries (failures + 1)
          abort).isRetired = false := by
        unfold failureTarget
        split_ifs <;> rfl
      exact .congr (counted.trans ((posts_observeSample _ _ _).trans
        (.quiet rfl (target.trans alive.symm) (fun _ => rfl) rfl ⟨rfl, rfl⟩)))
          fun _ => by simp [hardwarePosted]

theorem posts_accountSoftware (alive : w.phase.isRetired = false) {value : Word} {ticks : UInt64}
    (h : w.accountSoftware r value ticks = (w', r')) : w.Posts r (fun _ => 0) w' r' := by
  rcases hrecord : w.heuristic.recordSoftwareCommit ticks with ⟨verdict, heuristic⟩
  simp only [accountSoftware, hrecord] at h
  cases hmean : heuristic.lastSoftwareMean <;> rw [hmean] at h <;> cases verdict <;>
    obtain ⟨rfl, rfl⟩ := Prod.mk.inj h <;>
    exact .quiet rfl alive.symm (fun _ => rfl) rfl ⟨rfl, rfl⟩

end Worker

/-! ### All steps -/

/-- What a step of a worker posts. -/
def Phase.posted (p : Phase) (q : Request) (s : Shared) : Count → UInt64 :=
  match q, p with
  | .advance, .switching errand stage => stage.posted errand s
  | .advance, .software _ call => call.posted s
  | .account _, .hardware _ (.done result) => hardwarePosted result
  | _, _ => fun _ => 0

namespace Worker

variable {w w' : Worker} {r r' : Runtime}

theorem posts_choosePath (alive : w.phase.isRetired = false) {failures : UInt32}
    (h : w.choosePath r failures = some w') : w.Posts r (fun _ => 0) w' r := by
  unfold choosePath at h
  split at h
  · obtain rfl := Option.some.inj h
    exact posts_goto w r alive rfl
  · simp only at h
    split at h
    · cases h
    · obtain ⟨next, -, rfl⟩ := Option.map_eq_some_iff.1 h
      exact posts_goto w r alive rfl
    · split at h
      · obtain ⟨next, -, rfl⟩ := Option.map_eq_some_iff.1 h
        exact posts_goto w r alive rfl
      · obtain rfl := Option.some.inj h
        exact posts_goto w r alive rfl

theorem posts_advanceHardware (alive : w.phase.isRetired = false) {failures : UInt32}
    {x : Execution} (h : w.advanceHardware r failures x = some (w', r')) :
    w.Posts r (fun _ => 0) w' r' := by
  obtain ⟨⟨x', b', m⟩, -, heq⟩ := Option.map_eq_some_iff.1 h
  simp only at heq
  split at heq <;> obtain ⟨rfl, rfl⟩ := Prod.mk.inj heq <;>
    exact .quiet rfl alive.symm (fun _ => rfl) rfl ⟨rfl, rfl⟩

theorem posts_advance (h : w.advance r = some (.ok (w', r'))) :
    w.Posts r (w.phase.posted .advance r.engine.shared) w' r' := by
  unfold advance at h
  split at h
  · cases h
  · cases h
  · next failures hphase =>
    obtain ⟨w₁, hchoose, heq⟩ := Option.map_eq_some_iff.1 h
    obtain ⟨rfl, rfl⟩ := Prod.mk.inj (Except.ok.inj heq)
    rw [hphase]
    exact posts_choosePath (by rw [hphase]; rfl) hchoose
  · next failures region hphase =>
    obtain ⟨rfl, rfl⟩ := Prod.mk.inj (Except.ok.inj (Option.some.inj h))
    rw [hphase]
    exact posts_goto w r (by rw [hphase]; rfl) rfl
  · next failures x hphase =>
    obtain ⟨_, hadvance, heq⟩ := Option.map_eq_some_iff.1 h
    obtain rfl := Except.ok.inj heq
    rw [hphase]
    exact posts_advanceHardware (by rw [hphase]; rfl) hadvance
  · next errand stage hphase =>
    rw [hphase]
    exact posts_advanceErrand hphase (Option.some.inj h)
  · next place call hphase =>
    obtain ⟨_, hadvance, heq⟩ := Option.map_eq_some_iff.1 h
    obtain rfl := Except.ok.inj heq
    rw [hphase]
    exact posts_advanceSoftware hphase hadvance

theorem posts_account {ticks : UInt64} (h : w.account r ticks = some (.ok (w', r'))) :
    w.Posts r (w.phase.posted (.account ticks) r.engine.shared) w' r' := by
  unfold account at h
  split at h
  · next failures result hphase =>
    rw [hphase]
    exact posts_accountHardware (by rw [hphase]; rfl) (Option.some.inj h)
  · next value hphase =>
    rw [hphase]
    exact posts_accountSoftware (by rw [hphase]; rfl) (Except.ok.inj (Option.some.inj h))
  · cases h

/-- Who rests after another ending was not dropped. -/
theorem isRetired_of_resting {last : Option Ending} (hphase : w.phase = .resting last)
    (hlast : last = some .retired → False) : w.phase.isRetired = false := by
  rw [hphase]
  cases last with
  | none => rfl
  | some ending =>
    cases ending with
    | retired => exact absurd rfl hlast
    | _ => rfl

theorem posts_retire (h : w.retire r = some (w', r')) : w.Posts r (fun _ => 0) w' r' := by
  unfold retire at h
  split at h
  · cases h
  · next last hlast hphase =>
    have alive := isRetired_of_resting hphase hlast
    split at h
    · obtain ⟨rfl, rfl⟩ := Prod.mk.inj (Option.some.inj h)
      exact .quiet rfl alive.symm (fun _ => rfl) rfl ⟨rfl, rfl⟩
    · obtain ⟨rfl, rfl⟩ := Prod.mk.inj (Option.some.inj h)
      exact posts_rest w r .retired alive
  · cases h

theorem posts_panic (h : w.panic r = some (w', r')) : w.Posts r (fun _ => 0) w' r' := by
  unfold panic at h
  split at h
  · next failures region hphase =>
    obtain ⟨rfl, rfl⟩ := Prod.mk.inj (Option.some.inj h)
    exact posts_goto w r (by rw [hphase]; rfl) rfl
  · next place tx hphase =>
    have alive : w.phase.isRetired = false := by rw [hphase]; rfl
    cases place <;> obtain ⟨rfl, rfl⟩ := Prod.mk.inj (Option.some.inj h) <;>
      exact .quiet rfl alive.symm (fun _ => rfl) rfl ⟨rfl, rfl⟩
  · cases h

/-- Every step of a worker posts to the books what its phase says. -/
theorem posts_of_act {q : Request} {reply : Reply} (h : w.act r q = some (reply, w', r')) :
    w.Posts r (w.phase.posted q r.engine.shared) w' r' := by
  cases q with
  | call =>
    obtain ⟨w₁, hcall, heq⟩ := Option.map_eq_some_iff.1 h
    obtain ⟨-, rfl, rfl⟩ : Reply.done = reply ∧ w₁ = w' ∧ r = r' := by simpa using heq
    unfold call at hcall
    split at hcall
    · cases hcall
    · next last hlast hphase =>
      obtain rfl := Option.some.inj hcall
      exact posts_goto w r (isRetired_of_resting hphase hlast) rfl
    · cases hcall
  | retire => exact posts_retire (eq_some_of_done h).2
  | flush =>
    obtain ⟨-, heq⟩ := Prod.mk.inj (Option.some.inj h)
    obtain ⟨rfl, rfl⟩ := Prod.mk.inj heq
    exact posts_flush w r
  | advance => exact posts_advance (advance_of_act h).2
  | account ticks => exact posts_account (account_of_act h).2.2
  | panic => exact posts_panic (eq_some_of_done h).2
  | read a mask =>
    obtain ⟨⟨result, w₁⟩, hread, heq⟩ := Option.map_eq_some_iff.1 h
    obtain ⟨-, rfl, rfl⟩ : Reply.read result = reply ∧ w₁ = w' ∧ r = r' := by simpa using heq
    unfold read at hread
    split at hread
    · next failures region hphase =>
      obtain ⟨-, rfl⟩ := Prod.mk.inj (Option.some.inj hread)
      exact posts_goto w r (by rw [hphase]; rfl) rfl
    · next place tx hphase =>
      obtain ⟨⟨result', call⟩, -, heq⟩ := Option.map_eq_some_iff.1 hread
      obtain ⟨-, rfl⟩ := Prod.mk.inj heq
      exact posts_goto w r (by rw [hphase]; rfl) rfl
    · cases hread
  | write a v mask =>
    obtain ⟨⟨result, w₁⟩, hwrite, heq⟩ := Option.map_eq_some_iff.1 h
    obtain ⟨-, rfl, rfl⟩ : Reply.wrote result = reply ∧ w₁ = w' ∧ r = r' := by simpa using heq
    unfold write at hwrite
    split at hwrite
    · next failures region hphase =>
      obtain ⟨-, rfl⟩ := Prod.mk.inj (Option.some.inj hwrite)
      exact posts_goto w r (by rw [hphase]; rfl) rfl
    · next place tx hphase =>
      obtain ⟨-, rfl⟩ := Prod.mk.inj (Option.some.inj hwrite)
      exact posts_goto w r (by rw [hphase]; rfl) rfl
    · cases hwrite
  | abort code =>
    obtain ⟨⟨err, w₁⟩, habort, heq⟩ := Option.map_eq_some_iff.1 h
    obtain ⟨-, rfl, rfl⟩ : Reply.aborted err = reply ∧ w₁ = w' ∧ r = r' := by simpa using heq
    unfold abort at habort
    split at habort
    · next failures region hphase =>
      obtain ⟨-, rfl⟩ := Prod.mk.inj (Option.some.inj habort)
      exact posts_goto w r (by rw [hphase]; rfl) rfl
    · cases habort
  | endBody result =>
    obtain ⟨w₁, hend, heq⟩ := Option.map_eq_some_iff.1 h
    obtain ⟨-, rfl, rfl⟩ : Reply.done = reply ∧ w₁ = w' ∧ r = r' := by simpa using heq
    unfold endBody at hend
    split at hend
    · next failures region hphase =>
      obtain rfl := Option.some.inj hend
      exact posts_goto w r (by rw [hphase]; rfl) rfl
    · next place tx hphase =>
      obtain rfl := Option.some.inj hend
      exact posts_goto w r (by rw [hphase]; rfl) rfl
    · cases hend

end Worker

end HybridTM
