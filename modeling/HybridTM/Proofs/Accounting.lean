import HybridTM.Proofs.Books
import HybridTM.Proofs.Buffers
import HybridTM.Proofs.DataEffects
import Mathlib.Algebra.BigOperators.Group.Finset.Basic
import Mathlib.Tactic.LinearCombination

/-!
# Accounting

Every attempt and every call is counted exactly once. What stands in the books and what a worker has
yet to post there (`Phase.due`) always add up to what happened: each turn moves both by the same
(`Worker.Turn.accounted`). Every commit belongs to one call, which has returned or is about to
(`Worker.Turn.settles`). So between calls, as long as no body panics, the counters and tallies say
what they are named for (`Chronicle.exact_of_reachable`).
-/

set_option autoImplicit false

namespace HybridTM

open scoped UInt64.CommRing

/-! ## What happened -/

namespace Event

/-- Whether an optimistic attempt commits whose body made no write call. -/
def readsOnly : Event → Bool
  | .ended ⟨path, writes, .committed⟩ => path = .software && writes.isEmpty
  | _ => false

/-- Whether a compare-and-swap of the clock is executed. -/
def swapsClock : Event → Bool
  | .clockSwap => true
  | _ => false

/-- Whether the global lock is taken. -/
def takesLock : Event → Bool
  | .lockSwap => true
  | _ => false

/-- Whether an event is of a kind. -/
def counts (e : Event) : Count → Bool
  | .commit path => e.commit? = some path
  | .readOnly => e.readsOnly
  | .abort cls => e.failure? = some cls
  | .clockSwap => e.swapsClock
  | .lockSwap => e.takesLock

end Event

/-- The number of events of a kind, as a counter shows it. -/
def tallied (events : List Event) (k : Count) : UInt64 := .ofNat (events.countP (·.counts k))

@[simp]
theorem tallied_nil (k : Count) : tallied [] k = 0 := rfl

theorem tallied_append (events events' : List Event) (k : Count) :
    tallied (events ++ events') k = tallied events k + tallied events' k := by
  rw [tallied, List.countP_append, UInt64.ofNat_add]
  rfl

@[simp]
theorem tallied_begun (path : Path) (k : Count) : tallied [.begun path] k = 0 := by
  cases k <;> rfl

@[simp]
theorem tallied_lockSwap (k : Count) : tallied [.lockSwap] k = Count.one .lockSwap k := by
  cases k <;> rfl

theorem tallied_clockSwaps (n : Nat) (k : Count) :
    tallied (.replicate n .clockSwap) k = Count.swaps (.ofNat n) k := by
  rw [tallied, List.countP_replicate]
  cases k <;> rfl

/-- One attempt that fails is one of its class. -/
theorem tallied_failed (path : Path) (writes : List Access) (err : TxError) (k : Count) :
    tallied [.ended ⟨path, writes, .failed err⟩] k = Count.one (.abort err.abortClass) k := by
  rw [tallied, List.countP_singleton]
  cases k with
  | abort cls =>
    simp only [Event.counts, Event.failure?, Option.some.injEq, decide_eq_true_eq, Count.one,
      Count.abort.injEq, @eq_comm _ cls]
    split <;> rfl
  | _ => rfl

/-- One region that commits is one commit in hardware. -/
theorem tallied_hardware (writes : List Access) (k : Count) :
    tallied [.ended ⟨.hardware, writes, .committed⟩] k = Count.one (.commit .hardware) k := by
  rw [tallied, List.countP_singleton]
  cases k with
  | commit path => cases path <;> rfl
  | _ => rfl

/-- One attempt in software that commits is one of its kind. -/
theorem tallied_software {kind : CommitKind} {writes : List Access}
    (hkind : kind.path = .software → (kind = .readOnly ↔ writes = [])) (k : Count) :
    tallied [.ended ⟨kind.path, writes, .committed⟩] k = kind.posted k := by
  rw [tallied, List.countP_singleton]
  cases kind with
  | readOnly =>
    obtain rfl := (hkind rfl).1 rfl
    rcases k with (_ | _ | _ | _) | _ | _ | _ | _ <;> rfl
  | readWrite =>
    obtain ⟨x, xs, rfl⟩ := List.exists_cons_of_ne_nil (mt (hkind rfl).2 nofun)
    rcases k with (_ | _ | _ | _) | _ | _ | _ | _ <;> rfl
  | serial => rcases k with (_ | _ | _ | _) | _ | _ | _ | _ <;> rfl
  | exclusive => rcases k with (_ | _ | _ | _) | _ | _ | _ | _ <;> rfl

/-! ## What is due -/

/-- What has happened and is not yet posted: the end of a hardware execution, the swaps of the clock
that a transaction has collected, and a change of the mode that is not yet shown. -/
def Phase.due : Phase → Count → UInt64
  | .hardware _ (.done result) => hardwarePosted result
  | .software _ call => Count.swaps call.tx.lockAttempts
  | .switching errand (.announce _ _) => errand.posted true
  | _ => fun _ => 0

theorem Count.swaps_zero (k : Count) : Count.swaps 0 k = 0 := ite_self _

theorem Count.swaps_add (m n : Word) (k : Count) : swaps (m + n) k = swaps m k + swaps n k := by
  simp only [swaps]
  split
  · rfl
  · exact (add_zero _).symm

theorem Worker.due_destination (clock : Clock) (changed : Bool) (errand : Errand) (k : Count) :
    (destination clock changed errand).due k = 0 := by
  cases errand <;> cases changed <;> first | rfl | exact Count.swaps_zero k

theorem Worker.due_epilogue (value : Word) (place : Place) (k : Count) :
    (epilogue value place).due k = 0 := by
  cases place <;> rfl

/-- A swap of the mode word that takes the global lock is one. -/
theorem Phase.tallied_swap (errand : Errand) (seen next : ModeSnapshot) (s : Shared) (p' : Phase)
    (k : Count) : tallied ((Phase.switching errand (.swap seen next)).swaps .advance s p') k =
      errand.posted (s.memory.read Runtime.modeAddr = seen.encode) k := by
  cases errand with
  | lock failures =>
    simp only [Phase.swaps, Errand.takesLock, true_and, Errand.posted, decide_eq_true_eq]
    split
    · exact tallied_lockSwap k
    · exact tallied_nil k
  | _ => simp [Phase.swaps, Errand.takesLock, Errand.posted]

namespace Worker.Turn

variable {b b' : Backend} {s s' : Shared} {d d' : Bool} {p p' : Phase} {q : Request}
  {reply : Reply} {writes : List Access}

/-- The kind of a commit is that of the role, and it tells whether there was a write. -/
theorem kind_of_commit {tx tx' : Transaction} {kind : CommitKind} (B : tx.Buffers writes)
    (h : tx.commit s = some (.ok kind, tx', s')) : Path.ofRole tx.role = kind.path ∧
      (kind.path = .software → (kind = .readOnly ↔ writes = [])) := by
  rcases Transaction.commit_cases h with ⟨hrole, hkind, -⟩ | ⟨hrole, -, -, -, -, hkind, -⟩ |
    ⟨-, -, hkind, -⟩ | ⟨hrole, hkind, -⟩ | ⟨hrole, hkind, -⟩
  · obtain rfl := Except.ok.inj hkind
    refine ⟨by rw [hrole]; rfl, fun _ => ⟨fun _ => ?_, fun _ => rfl⟩⟩
    exact (B.readOnly (by rw [hrole]; rfl)).1 hrole
  · obtain rfl := Except.ok.inj hkind
    refine ⟨by rw [hrole]; rfl, fun _ => ⟨nofun, fun hwrites => ?_⟩⟩
    have hreader := (B.readOnly (by rw [hrole]; rfl)).2 hwrites
    rw [hrole] at hreader
    cases hreader
  · cases hkind
  · obtain rfl := Except.ok.inj hkind
    exact ⟨by rw [hrole]; rfl, nofun⟩
  · obtain rfl := Except.ok.inj hkind
    exact ⟨by rw [hrole]; rfl, nofun⟩

/-- An errand that is over has posted what it did. -/
theorem accounted_errand {errand : Errand} {stage : SwapStage} {changed : Bool} (clock : Clock)
    (k : Count) (h : stage.posted errand s k = (Phase.switching errand stage).due k +
      tallied ((Phase.switching errand stage).swaps .advance s
        (destination clock changed errand)) k) :
    (Phase.switching errand stage).posted .advance s k + (destination clock changed errand).due k =
      (Phase.switching errand stage).due k + tallied ((Phase.switching errand stage).events .advance
        s (destination clock changed errand) writes) k := by
  rw [due_destination, add_zero, Phase.events, Phase.turns_of_none rfl (attempt?_destination _ _ _),
    List.append_nil]
  exact h

/-- A software call that goes on posts the failure of an attempt when it has rolled it back. -/
theorem accounted_going {place : Place} {call call' : Call} (B : call.Buffers writes)
    (turn : Call.Turn call (place = .lock) s (.going call') s') (k : Count) :
    call.posted s k + Count.swaps call'.tx.lockAttempts k = Count.swaps call.tx.lockAttempts k +
      tallied ((Phase.software place call).events .advance s (.software place call') writes) k := by
  obtain ⟨tx, stage⟩ := call
  cases turn with
  | exclusive hstage only =>
    obtain rfl : stage = .starting := hstage
    have begun := tallied_begun .glock k
    exact (add_comm (0 : UInt64) _).trans (congrArg _ begun.symm)
  | optimistic hstage others =>
    obtain rfl : stage = .starting := hstage
    have begun := tallied_begun .software k
    exact (add_comm (0 : UInt64) _).trans (congrArg _ begun.symm)
  | serial hstage others begins =>
    obtain rfl : stage = .starting := hstage
    obtain ⟨now, -, rfl, rfl⟩ := Transaction.beginSerial_eq_some begins
    -- The clock is taken before the attempt begins.
    have happened : tallied [.clockSwap, .begun .serial] k = Count.swaps 1 k := by
      rw [← List.singleton_append, tallied_append, tallied_begun, add_zero]
      exact tallied_clockSwaps 1 k
    show 0 + Count.swaps (tx.lockAttempts + 1) k =
      Count.swaps tx.lockAttempts k + tallied [.clockSwap, .begun .serial] k
    rw [happened, zero_add, Count.swaps_add]
  | @failed value hstage err tx' s' fails =>
    obtain rfl : stage = .committing value := hstage
    obtain ⟨-, hattempts⟩ := Transaction.commitActs_spec fails
    have happened : (Phase.software place ⟨tx, .committing value⟩).events .advance s
        (.software place ⟨tx', .aborting err⟩) writes =
          .replicate ((tx.commitActs s).countP (·.isLock)) .clockSwap := List.append_nil _
    simp only [Call.posted, fails]
    rw [happened, tallied_clockSwaps, hattempts, Count.swaps_add, zero_add]
  | @rollback err hstage =>
    obtain rfl : stage = .aborting err := hstage
    have failed := tallied_failed (.ofRole tx.role) writes err k
    show Count.one _ k + Count.swaps tx.lockAttempts k + Count.swaps 0 k =
      Count.swaps tx.lockAttempts k + tallied [.ended ⟨.ofRole tx.role, writes, .failed err⟩] k
    rw [failed, Count.swaps_zero, add_zero, add_comm]

/-- A software call that commits posts the commit. -/
theorem accounted_commit {place : Place} {call : Call} {value : Word} (B : call.Buffers writes)
    (turn : Call.Turn call (place = .lock) s (.committed value) s') (k : Count) :
    call.posted s k = Count.swaps call.tx.lockAttempts k +
      tallied ((Phase.software place call).events .advance s (epilogue value place) writes) k := by
  obtain ⟨tx, stage⟩ := call
  cases turn with
  | @commit _ hstage kind tx' s' commits =>
    obtain rfl : stage = _ := hstage
    obtain ⟨-, hattempts⟩ := Transaction.commitActs_spec commits
    obtain ⟨hpath, hkind⟩ := kind_of_commit B commits
    have happened : (Phase.software place ⟨tx, .committing value⟩).events .advance s
        (epilogue value place) writes =
          .replicate ((tx.commitActs s).countP (·.isLock)) .clockSwap ++
            [.ended ⟨kind.path, writes, .committed⟩] := by
      rw [← hpath]
      cases place <;> rfl
    simp only [Call.posted, commits]
    rw [happened, tallied_append, tallied_clockSwaps, tallied_software hkind, hattempts,
      Count.swaps_add]
    ring

/-- A turn without a panic posts what was due and what happens in it, except for what is due from
then on. -/
theorem accounted (T : Turn b s d p q reply d' p' s' b') (B : p.Buffers b.isSupported writes)
    (calm : q ≠ .panic) (k : Count) :
    p.posted q s k + p'.due k = p.due k + tallied (p.events q s p' writes) k := by
  cases T with
  | flush =>
    rw [Phase.events, Phase.turns_self, add_comm]
    rfl
  | toEpoch failures inside => exact congrArg (0 + ·) (Count.swaps_zero k)
  | toHardware failures outside => exact congrArg (0 + ·) (tallied_begun _ k).symm
  | refuse failures r abort => exact congrArg (0 + ·) (tallied_failed _ _ _ k).symm
  | execution failures turn past =>
    cases turn with
    | refused enters => exact congrArg (0 + ·) (tallied_failed _ _ _ k).symm
    | entered enters => exact absurd rfl (past _)
    | doomed value doomed => exact congrArg (0 + ·) (tallied_failed _ _ _ k).symm
    | commit value commits => exact congrArg (0 + ·) (tallied_hardware _ k).symm
    | conflict value fails => exact congrArg (0 + ·) (tallied_failed _ _ _ k).symm
    | _ => rfl
  | inapplicable change => exact accounted_errand _ k rfl
  | @swap errand seen next found mode =>
    refine accounted_errand _ k ?_
    rw [Phase.tallied_swap]
    simp [SwapStage.posted, found, mode, Phase.due]
  | @swapMode errand seen next found mode =>
    rw [Phase.events, Phase.turns_of_none rfl rfl, List.append_nil, Phase.tallied_swap]
    simp [SwapStage.posted, found, mode, Phase.due, Phase.posted, Errand.posted_false]
  | @reload errand seen next lost persistent =>
    rw [Phase.events, Phase.turns_of_none rfl rfl, List.append_nil, Phase.tallied_swap]
    simp [SwapStage.posted, lost, Phase.due, Phase.posted, Errand.posted_false]
  | @giveUp errand seen next lost persistent =>
    refine accounted_errand _ k ?_
    rw [Phase.tallied_swap]
    simp [SwapStage.posted, lost, Phase.due]
  | announce seen next => exact accounted_errand _ k (add_zero (_ : UInt64)).symm
  | software place turn => exact accounted_going B turn k
  | commit place turn =>
    rw [due_epilogue, add_zero]
    exact accounted_commit B turn k
  | readSoftware place reads =>
    have hattempts := Transaction.lockAttempts_read reads
    simp only [Phase.due, hattempts]
    exact add_comm (0 : UInt64) _
  | writeSoftware place tx a v mask => exact add_comm (0 : UInt64) _
  | endRegion failures r result =>
    cases result with
    | ok value => rfl
    | error err => exact congrArg (0 + ·) (tallied_failed _ _ _ k).symm
  | endSoftware place tx result => cases result <;> exact add_comm ..
  | panicSoftware place tx => exact absurd rfl calm
  | panicRegion failures r => exact absurd rfl calm
  | _ => rfl

/-- An attempt begins, ends or stays on its path. -/
theorem attempt_stays (T : Turn b s d p q reply d' p' s' b') :
    p.attempt? = none ∨ p'.attempt? = none ∨ p'.attempt? = p.attempt? := by
  cases T with
  | flush => exact Or.inr (Or.inr rfl)
  | execution failures turn past =>
    cases turn <;> first | exact Or.inr (Or.inl rfl) | exact Or.inr (Or.inr rfl)
  | @software place call call' s' turn =>
    obtain ⟨tx, stage⟩ := call
    cases turn with
    | exclusive hstage only => obtain rfl : stage = _ := hstage; exact Or.inl rfl
    | optimistic hstage others => obtain rfl : stage = _ := hstage; exact Or.inl rfl
    | serial hstage others begins => obtain rfl : stage = _ := hstage; exact Or.inl rfl
    | failed hstage fails =>
      obtain rfl : stage = _ := hstage
      obtain ⟨-, -, -, n, rfl⟩ := Transaction.commit_failed fails
      exact Or.inr (Or.inr rfl)
    | rollback hstage => exact Or.inr (Or.inl rfl)
  | commit place turn => exact Or.inr (Or.inl (attempt?_epilogue _ _))
  | readSoftware place reads =>
    obtain ⟨hrole, -⟩ := Transaction.kept_read reads
    refine Or.inr (Or.inr ?_)
    simp only [Phase.attempt?, hrole]
  | writeSoftware place tx a v mask =>
    refine Or.inr (Or.inr ?_)
    -- A reader that becomes a writer is optimistic as before.
    rcases tx.role_write a v mask with ⟨hwrite, hrole⟩ | ⟨hwrite, -⟩
    · simp only [Phase.attempt?, hwrite, hrole, Path.ofRole]
    · simp only [Phase.attempt?, hwrite]
  | endRegion failures r result =>
    cases result with
    | ok value => exact Or.inr (Or.inr rfl)
    | error err => exact Or.inr (Or.inl rfl)
  | endSoftware place tx result => cases result <;> exact Or.inr (Or.inr rfl)
  | panicSoftware place tx => cases place <;> exact Or.inr (Or.inl rfl)
  | _ => first | exact Or.inl rfl | exact Or.inr (Or.inl rfl) | exact Or.inr (Or.inr rfl)

/-- The attempts that begin with a turn or were under way are those that end or are under way from
then on. -/
theorem attempts (T : Turn b s d p q reply d' p' s' b') :
    (p.events q s p' writes).filterMap Event.beginning? ++ p.attempt?.toList =
      (p.events q s p' writes).filterMap Event.ending? ++ p'.attempt?.toList := by
  rw [Phase.filterMap_events rfl rfl, Phase.filterMap_events rfl rfl, Phase.turns]
  rcases T.attempt_stays with h | h | h
  · rw [h]
    cases p'.attempt? <;> rfl
  · rw [h]
    cases p.attempt? <;> rfl
  · rw [h]
    cases p.attempt? <;> rfl

/-- A turn settles the value of a call when it commits the last attempt, and not otherwise. -/
def Settles (p : Phase) (q : Request) (p' : Phase) (writes : List Access) : Prop :=
  p'.settled? q = p.pending? ∧ (p.turns q p' writes).filterMap Event.commit? = [] ∧
      (p.pending? ≠ none → q ≠ .call ∧ p.turns q p' writes = []) ∨
    p.pending? = none ∧ p'.settled? q ≠ none ∧ q ≠ .call ∧
      ∃ path, p.turns q p' writes = [.ended ⟨path, writes, .committed⟩]

/-- An errand keeps the ending that it carries until it is over. -/
theorem settles_errand {errand : Errand} {stage stage' : SwapStage} :
    Settles (.switching errand stage) .advance (.switching errand stage') writes := by
  refine Or.inl ⟨?_, rfl, fun _ => ⟨nofun, rfl⟩⟩
  cases errand with
  | leave ending => cases ending <;> rfl
  | endEpoch ending => cases ending <;> rfl
  | unlock ending => cases ending <;> rfl
  | _ => rfl

/-- Then this is where it leads. -/
theorem settles_destination {errand : Errand} {stage : SwapStage} {changed : Bool} {c : Clock} :
    Settles (.switching errand stage) .advance (destination c changed errand) writes := by
  rw [Settles, Phase.turns_of_none rfl (attempt?_destination _ _ _)]
  refine Or.inl ⟨?_, rfl, fun _ => ⟨nofun, rfl⟩⟩
  cases errand with
  | leave ending => cases ending <;> rfl
  | endEpoch ending => cases ending <;> rfl
  | unlock ending => cases ending <;> rfl
  | _ => cases changed <;> rfl

theorem settles (T : Turn b s d p q reply d' p' s' b') : Settles p q p' writes := by
  cases T with
  | flush => exact Or.inl ⟨rfl, by rw [Phase.turns_self]; rfl, fun _ => ⟨nofun, Phase.turns_self⟩⟩
  | execution failures turn past =>
    cases turn with
    | commit value commits => exact Or.inr ⟨rfl, nofun, nofun, .hardware, rfl⟩
    | _ => exact Or.inl ⟨rfl, rfl, fun h => absurd rfl h⟩
  | settle failures value ticks => exact Or.inl ⟨rfl, rfl, fun _ => ⟨nofun, rfl⟩⟩
  | load change => exact settles_errand
  | inapplicable change => exact settles_destination
  | swap found mode => exact settles_destination
  | swapMode found mode => exact settles_errand
  | reload lost persistent => exact settles_errand
  | giveUp lost persistent => exact settles_destination
  | announce seen next => exact settles_destination
  | @software place call call' s' turn =>
    obtain ⟨tx, stage⟩ := call
    refine Or.inl ⟨rfl, ?_, fun h => absurd rfl h⟩
    cases turn with
    | exclusive hstage only => obtain rfl : stage = _ := hstage; rfl
    | optimistic hstage others => obtain rfl : stage = _ := hstage; rfl
    | serial hstage others begins => obtain rfl : stage = _ := hstage; rfl
    | failed hstage fails => obtain rfl : stage = _ := hstage; rfl
    | rollback hstage => obtain rfl : stage = _ := hstage; rfl
  | @commit place call value s' turn =>
    obtain ⟨tx, stage⟩ := call
    cases turn with
    | commit hstage commits =>
      obtain rfl : stage = .committing value := hstage
      refine Or.inr ⟨rfl, ?_, nofun, .ofRole tx.role, ?_⟩ <;> cases place <;> first | rfl | nofun
  | stay value ticks => exact Or.inl ⟨rfl, rfl, fun _ => ⟨nofun, rfl⟩⟩
  | goBack value ticks => exact Or.inl ⟨rfl, rfl, fun _ => ⟨nofun, rfl⟩⟩
  | endRegion failures r result =>
    cases result <;> exact Or.inl ⟨rfl, rfl, fun h => absurd rfl h⟩
  | endSoftware place tx result =>
    cases result <;> exact Or.inl ⟨rfl, rfl, fun h => absurd rfl h⟩
  | panicSoftware place tx =>
    cases place <;> exact Or.inl ⟨rfl, rfl, fun h => absurd rfl h⟩
  | _ => exact Or.inl ⟨rfl, rfl, fun h => absurd rfl h⟩

end Worker.Turn

end HybridTM
