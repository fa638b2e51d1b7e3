import HybridTM.Proofs.HardwareRetries
import HybridTM.Proofs.Unwinding
import HybridTM.Proofs.Verdicts

/-!
# Falling back from hardware

A worker is alone when every other is new or was dropped. Its call searches for a path until it
decides for one: its body commits in a region, or begins in an epoch of its own or under the global
lock (`Decided`). A search makes few moves since its last region (`Worker.Turn.search`), and nobody
is in its way, so that another move is always possible (`Worker.exists_move`). As regions abort only
so often, the call decides in time (`Chronicle.fallsBack_of_reachable`).
-/

set_option autoImplicit false

namespace HybridTM

/-! ## Searching for a path -/

/-- Whether a request is a move of the worker: a step of its own, or the end of an invocation of its
body. -/
def Request.isMove : Request → Bool
  | .advance | .account _ | .endBody _ => true
  | _ => false

/-- An attempt that was a region and aborted. -/
def Trial.IsAborted (t : Trial) : Prop :=
  t.path = .hardware ∧ ∃ abort, t.outcome = .failed (.hardware abort)

/-- Whether an attempt was a region that aborted by a change of the mode. -/
def Trial.changesMode : Trial → Bool
  | ⟨.hardware, _, .failed (.hardware abort)⟩ => abort.isModeChange
  | _ => false

/-- Without changes of the mode all aborts count. -/
theorem aborts_eq_length {trials : List Trial} (aborted : ∀ t ∈ trials, t.IsAborted)
    (unchanged : ∀ t ∈ trials, t.changesMode = false) : aborts trials = trials.length := by
  refine List.countP_eq_length.2 fun t ht => ?_
  obtain ⟨hpath, abort, houtcome⟩ := aborted t ht
  have hmode := unchanged t ht
  obtain ⟨path, writes, outcome⟩ := t
  obtain rfl : path = .hardware := hpath
  obtain rfl : outcome = _ := houtcome
  exact congrArg (!·) hmode

/-- How many steps of an errand come before a stage. -/
def SwapStage.rank : SwapStage → Nat
  | .load => 0
  | .swap _ _ => 1
  | .announce _ _ => 2

namespace Phase

/-- Whether a call searches for a path. A worker that is alone finds no epoch to join. -/
def isSearching : Phase → Bool
  | .hardware _ (.done (.ok _)) => false
  | .dispatch _ | .checking _ _ | .hardware _ _ => true
  | .switching (.register _) _ | .switching (.flip _) _ | .switching (.lock _) _ => true
  | .software .epoch ⟨_, .starting⟩ | .software .lock ⟨_, .starting⟩ => true
  | _ => false

/-- How many moves lead at most to a phase of a search from its beginning or its last region. -/
def rank : Phase → Nat
  | .hardware _ (.done _) => 0
  | .switching (.register _) stage => 1 + stage.rank
  | .switching (.flip _) stage => 4 + stage.rank
  | .dispatch _ => 7
  | .hardware _ .starting => 8
  | .checking _ _ => 9
  | .hardware _ (.running _) => 10
  | .hardware _ (.returned _ _) => 11
  | .hardware _ (.hook _ _ _) => 12
  | .hardware _ (.committing _ _) => 13
  | .switching _ stage => 8 + stage.rank
  | .software _ _ => 11
  | .resting _ | .measuring _ => 0

/-- So fourteen moves for a region are enough. -/
theorem rank_le (p : Phase) : p.rank ≤ 13 := by
  cases p with
  | hardware failures x => cases x <;> simp [rank]
  | switching errand stage => cases errand <;> cases stage <;> simp [rank, SwapStage.rank]
  | _ => simp [rank]

/-- Nobody who searches was dropped. -/
theorem not_isRetired_of_isSearching {p : Phase} (h : p.isSearching = true) :
    ¬ p.isRetired = true := by
  intro hretired
  rw [eq_of_isRetired hretired] at h
  cases h

/-- In software a search is over once the body begins. -/
theorem exists_of_isSearching_software {place : Place} {call : Call}
    (h : (software place call).isSearching = true) :
    ∃ tx, call = ⟨tx, .starting⟩ ∧ place ≠ .joined := by
  obtain ⟨tx, stage⟩ := call
  cases stage with
  | starting =>
    refine ⟨tx, rfl, ?_⟩
    rintro rfl
    cases h
  | _ => cases place <;> cases h

/-- No search holds the clock. -/
theorem clockHoldings_of_isSearching {p : Phase} {supported : Bool} {writes : List Access}
    (B : p.Buffers supported writes) (h : p.isSearching = true) : p.clockHoldings = 0 := by
  cases p with
  | software place call =>
    obtain ⟨tx, rfl, -⟩ := exists_of_isSearching_software h
    exact Transaction.clockHoldings_of_idle B.1
  | _ => rfl

/-- An errand of a search swaps the word that is there. -/
def Steady (s : Shared) (p : Phase) : Prop :=
  p.isSearching = true → ∀ errand seen next, p = .switching errand (.swap seen next) →
    s.memory.read Runtime.modeAddr = seen.encode

/-- What a search comes to in a step with the attempts that end in it: it goes on, with aborted
regions behind it, or its body committed in a region, begins in software, or panicked. -/
inductive Search (p : Phase) (q : Request) (p' : Phase) (trials : List Trial) : Prop
  /-- It goes on. -/
  | searching (phase : p'.isSearching = true) (aborted : ∀ t ∈ trials, t.IsAborted)
      (rank : q.isMove.toNat + p.rank ≤ 14 * trials.length + p'.rank)
  /-- The body committed in a region. -/
  | hardware {failures : UInt32} {value : Word} {writes : List Access}
      (phase : p' = .hardware failures (.done (.ok value)))
      (trials : trials = [⟨.hardware, writes, .committed⟩])
  /-- The body begins in software. -/
  | software {place : Place} {tx : Transaction} (phase : p' = .software place ⟨tx, .running⟩)
      (place : place ≠ .joined) (trials : trials = [])
  /-- The body panicked in a region. -/
  | panicked {writes : List Access} (trials : trials = [⟨.hardware, writes, .panicked⟩])

namespace Search

variable {p p' : Phase} {q : Request}

/-- A search goes on, and no attempt ends. -/
theorem ongoing (phase : p'.isSearching = true) (rank : q.isMove.toNat + p.rank ≤ p'.rank) :
    p.Search q p' [] :=
  .searching phase (List.forall_mem_nil _) (by rwa [List.length_nil, Nat.mul_zero, Nat.zero_add])

/-- A search goes on after a region that aborts. -/
theorem aborted (phase : p'.isSearching = true) {writes : List Access} {abort : HardwareAbort}
    (rank : q.isMove.toNat + p.rank ≤ 14 + p'.rank) :
    p.Search q p' [⟨.hardware, writes, .failed (.hardware abort)⟩] :=
  .searching phase (List.forall_mem_singleton.2 ⟨rfl, abort, rfl⟩) rank

/-- An errand of a search comes to its next stage. -/
theorem staged {errand : Errand} {stage stage' : SwapStage}
    (search : (Phase.switching errand stage).isSearching = true)
    (next : stage'.rank = stage.rank + 1) :
    (Phase.switching errand stage).Search .advance (.switching errand stage') [] := by
  have rank (n : Nat) : 1 + (n + stage.rank) ≤ n + stage'.rank := by omega
  cases errand with
  | register failures => exact .ongoing rfl (rank 1)
  | flip failures => exact .ongoing rfl (rank 4)
  | lock failures => exact .ongoing rfl (rank 8)
  | _ => cases search

end Search

end Phase

namespace Worker.Turn

variable {b b' : Backend} {s s' : Shared} {d d' : Bool} {p p' : Phase} {q : Request}
  {reply : Reply} {writes : List Access}

/-- What an errand swaps was just loaded. -/
theorem steady (T : Turn b s d p q reply d' p' s' b') (S : p.Steady s)
    (word : s.memory.read Runtime.modeAddr = s.mode.encode) : p'.Steady s' := by
  intro search errand seen next hp'
  -- No errand leads to a swap.
  have destined {e : Errand} {changed : Bool} {c : Clock}
      (h : destination c changed e = .switching errand (.swap seen next)) : False := by
    cases e <;> cases changed <;> cases h
  cases T with
  | flush => exact S search _ _ _ hp'
  | toJoin failures outside change => rw [hp'] at search; cases hp'; cases search
  | load change =>
    cases hp'
    exact word
  | inapplicable change => exact (destined hp').elim
  | swap found mode => exact (destined hp').elim
  | giveUp lost persistent => exact (destined hp').elim
  | announce seen next => exact (destined hp').elim
  | commit place turn => cases place <;> cases search
  | panicSoftware place tx => cases place <;> cases search
  | _ => cases hp'

/-- Where an errand of a search leads, when it changed the word or had to. -/
theorem search_destination {errand : Errand} {stage : SwapStage} {changed : Bool} {c : Clock}
    (search : (Phase.switching errand stage).isSearching = true)
    (lock : errand.takesLock = true → changed = true) :
    (Phase.switching errand stage).Search .advance (destination c changed errand)
      (((Phase.switching errand stage).turns .advance (destination c changed errand)
        writes).filterMap Event.trial?) := by
  rw [Phase.turns_of_none rfl (attempt?_destination _ _ _)]
  cases errand with
  | register failures =>
    cases changed <;> cases stage <;> exact .ongoing rfl (Nat.le_of_sub_eq_zero rfl)
  | flip failures => cases stage <;> exact .ongoing rfl (Nat.le_of_sub_eq_zero rfl)
  | lock failures =>
    obtain rfl := lock rfl
    cases stage <;> exact .ongoing rfl (Nat.le_of_sub_eq_zero rfl)
  | _ => cases search

/-- A step of a search that nobody disturbs goes on with it or decides for a path. -/
theorem search (T : Turn b s d p q reply d' p' s' b') (writes : List Access) (hq : q ≠ .call)
    (search : p.isSearching = true) (S : p.Steady s)
    (outside : p.stake d = .none → s.mode = .initial) :
    p.Search q p' ((p.turns q p' writes).filterMap Event.trial?) := by
  cases T with
  | call alive => exact absurd rfl hq
  | panicRegion failures r => exact .panicked rfl
  | panicSoftware place tx => cases place <;> cases search
  | flush =>
    rw [Phase.turns_self]
    exact .ongoing search (Nat.le_of_eq (Nat.zero_add _))
  | toJoin failures hd change =>
    -- The word is initial, and there is no epoch.
    rw [outside (by rw [hd]; rfl)] at change
    cases change
  | refuse failures r abort => exact .aborted rfl (Nat.le_of_sub_eq_zero rfl)
  | execution failures turn past =>
    cases turn with
    | refused enters => exact .aborted rfl (Nat.le_of_sub_eq_zero rfl)
    | entered enters => exact absurd rfl (past _)
    | doomed value doomed => exact .aborted rfl (Nat.le_of_sub_eq_zero rfl)
    | conflict value fails => exact .aborted rfl (Nat.le_of_sub_eq_zero rfl)
    | commit value commits => exact .hardware rfl rfl
    | _ => exact .ongoing rfl (Nat.le_of_sub_eq_zero rfl)
  | load change => exact .staged search rfl
  | @inapplicable errand change =>
    refine search_destination search fun hlock => ?_
    cases errand with
    | lock failures =>
      -- The word is initial, and the lock can be taken.
      rw [outside rfl] at change
      cases change
    | _ => cases hlock
  | swap found mode => exact search_destination search fun _ => rfl
  | swapMode found mode => exact .staged search rfl
  | reload lost persistent => exact absurd (S search _ _ _ rfl) lost
  | giveUp lost persistent => exact absurd (S search _ _ _ rfl) lost
  | announce seen next => exact search_destination search fun _ => rfl
  | @software place call call' s' turn =>
    obtain ⟨tx, rfl, hplace⟩ := Phase.exists_of_isSearching_software search
    cases turn with
    | exclusive hstage only => exact .software rfl hplace rfl
    | optimistic hstage others => exact .software rfl hplace rfl
    | serial hstage others begins => exact .software rfl hplace rfl
    | failed hstage fails => cases hstage
    | rollback hstage => cases hstage
  | @commit place call value s' turn =>
    obtain ⟨tx, rfl, -⟩ := Phase.exists_of_isSearching_software search
    cases turn with
    | commit hstage commits => cases hstage
  | endRegion failures r result =>
    cases result with
    | ok value => exact .ongoing rfl (Nat.le_of_sub_eq_zero rfl)
    | error err => exact .aborted rfl (Nat.le_of_sub_eq_zero rfl)
  | retire outside => cases search
  | retireEpoch inside => cases search
  | settle failures value ticks => cases search
  | stay value ticks => cases search
  | goBack value ticks => cases search
  | readSoftware place reads => cases place <;> cases search
  | writeSoftware place tx a v mask => cases place <;> cases search
  | endSoftware place tx result => cases place <;> cases search
  | _ => exact .ongoing rfl (Nat.le_of_sub_eq_zero rfl)

end Worker.Turn

/-! ## Another move -/

namespace Manager

/-- A manager without an hourglass never waits. -/
theorem mayBegin_of_hourglasses_eq_zero {m : Manager} (h : m.hourglasses = 0) (token : Token) :
    m.holdings = 0 ∧ m.mayBegin token = true := by
  induction m with
  | aggressive => exact ⟨rfl, rfl⟩
  | backoff b => exact ⟨rfl, rfl⟩
  | hourglass g => cases h
  | compose first second name ih₁ ih₂ =>
    obtain ⟨h₁, h₂⟩ := Nat.add_eq_zero_iff.1 h
    obtain ⟨hold₁, begin₁⟩ := ih₁ h₁
    obtain ⟨hold₂, begin₂⟩ := ih₂ h₂
    exact ⟨by rw [holdings, hold₁, hold₂], by rw [mayBegin, begin₁, begin₂]; rfl⟩

/-- One with a single hourglass does not while nobody else holds the token. -/
theorem mayBegin_of_holdings {m : Manager} {token : Token} (h : m.hourglasses ≤ 1)
    (htoken : token.toNat = m.holdings) : m.mayBegin token = true := by
  induction m with
  | aggressive => rfl
  | backoff b => rfl
  | hourglass g =>
    rw [holdings] at htoken
    rw [mayBegin, Hourglass.mayBegin]
    cases token <;> cases hholding : g.holding <;> simp_all
  | compose first second name ih₁ ih₂ =>
    rw [hourglasses] at h
    rw [holdings] at htoken
    rw [mayBegin, Bool.and_eq_true]
    -- The hourglass is in one of the two.
    obtain hnone | hnone : first.hourglasses = 0 ∨ second.hourglasses = 0 := by omega
    · obtain ⟨hold, hbegin⟩ := mayBegin_of_hourglasses_eq_zero hnone token
      exact ⟨hbegin, ih₂ (by omega) (by omega)⟩
    · obtain ⟨hold, hbegin⟩ := mayBegin_of_hourglasses_eq_zero hnone token
      exact ⟨ih₁ (by omega) (by omega), hbegin⟩

theorem hourglasses_build (p : Policy) : p.build.hourglasses ≤ 1 := by
  cases p <;> simp [Policy.build, hourglasses]

end Manager

/-- A serial attempt begins while nobody holds the clock. -/
theorem Transaction.exists_beginSerial (tx : Transaction) {clock : Clock}
    (h : clock.isLocked = false) : ∃ begun, tx.beginSerial clock = some begun := by
  have hnow : clock.unlocked? = some clock.now := Clock.unlocked?_eq_some_iff.2 ⟨h, rfl⟩
  have hlock : clock.lock? clock.now = some ⟨clock.now + 1⟩ := Clock.lock?_eq_some_iff.2 ⟨rfl, rfl⟩
  simp [beginSerial, hnow, hlock]

namespace Worker

variable {w : Worker} {r : Runtime}

theorem isSome_choosePath (failures : UInt32)
    (outside : w.deferred = false → r.mode = .initial) :
    (w.choosePath r failures).isSome = true := by
  unfold choosePath
  cases hd : w.deferred with
  | true => rfl
  | false =>
    rw [outside hd]
    by_cases hmax : r.config.maxRetries ≤ failures <;>
      simp [hmax, ModeSnapshot.initial, ModeSnapshot.acquireLock?]

theorem isSome_advanceHardware {x : Execution} (failures : UInt32) (running : ∀ r, x ≠ .running r)
    (done : ∀ result, x ≠ .done result) : (w.advanceHardware r failures x).isSome = true := by
  rw [advanceHardware, Option.isSome_map]
  cases x with
  | starting => rw [Execution.advance]; split <;> rfl
  | running region => exact absurd rfl (running region)
  | returned region value => rw [Execution.advance]; split <;> rfl
  | hook name region value => rfl
  | committing region value => rw [Execution.advance]; split <;> rfl
  | done result => exact absurd rfl (done result)

theorem isSome_advanceSoftware (place : Place) (tx : Transaction)
    (clock : r.engine.clock.isLocked = false)
    (begins : w.context.manager.mayBegin r.engine.token = true) :
    (w.advanceSoftware r place ⟨tx, .starting⟩).isSome = true := by
  simp only [advanceSoftware, Call.advance, Call.start, Option.isSome_map]
  split
  · rfl
  · rw [Option.isSome_map, Engine.beginAttempt]
    obtain ⟨begun, hbegun⟩ := tx.exists_beginSerial clock
    split
    · rw [hbegun]
      rfl
    · rfl

/-- A worker whose call searches can make a move if nobody is in its way. -/
theorem exists_move (search : w.phase.isSearching = true)
    (outside : w.stake = .none → r.mode = .initial) (clock : r.engine.clock.isLocked = false)
    (begins : w.context.manager.mayBegin r.engine.token = true) (room : w.heuristic.HasRoom 0) :
    ∃ q, q.isMove = true ∧ (w.act r q).isSome = true := by
  have advances {x : Worker × Runtime} (h : w.advance r = some (.ok x)) :
      ∃ q : Request, q.isMove = true ∧ (w.act r q).isSome = true :=
    ⟨.advance, rfl, by rw [act, h]; rfl⟩
  have executes {failures : UInt32} {x : Execution} (hphase : w.phase = .hardware failures x)
      (running : ∀ region, x ≠ .running region) (done : ∀ result, x ≠ .done result) :
      ∃ q : Request, q.isMove = true ∧ (w.act r q).isSome = true := by
    obtain ⟨wr, hadvance⟩ :=
      Option.isSome_iff_exists.1 (isSome_advanceHardware failures running done)
    exact advances (by rw [advance, hphase]; exact congrArg (Option.map _) hadvance)
  unfold stake at outside
  cases hphase : w.phase with
  | resting last => rw [hphase] at search; cases search
  | dispatch failures =>
    have hsome : (w.choosePath r failures).isSome = true := by
      refine isSome_choosePath failures fun hd => outside ?_
      rw [hphase, hd]
      rfl
    obtain ⟨w', hchoose⟩ := Option.isSome_iff_exists.1 hsome
    exact advances (by rw [advance, hphase]; exact congrArg (Option.map _) hchoose)
  | checking failures region => exact advances (by rw [advance, hphase])
  | hardware failures x =>
    cases x with
    | starting => exact executes hphase (by simp) (by simp)
    | running region =>
      exact ⟨.endBody (.ok 0), rfl, by rw [act, endBody, hphase]; rfl⟩
    | returned region value => exact executes hphase (by simp) (by simp)
    | hook name region value => exact executes hphase (by simp) (by simp)
    | committing region value => exact executes hphase (by simp) (by simp)
    | done result =>
      obtain ⟨x, haccount⟩ := exists_accountHardware room r failures result
      refine ⟨.account 0, rfl, ?_⟩
      rw [act, if_pos room, account, hphase]
      simp only [haccount]
      rfl
  | switching errand stage =>
    obtain ⟨x, hadvance⟩ := exists_advanceErrand room r errand stage
    exact advances (by rw [advance, hphase]; exact congrArg some hadvance)
  | software place call =>
    rw [hphase] at search
    obtain ⟨tx, rfl, -⟩ := Phase.exists_of_isSearching_software search
    obtain ⟨wr, hadvance⟩ :=
      Option.isSome_iff_exists.1 (isSome_advanceSoftware place tx clock begins)
    exact advances (by rw [advance, hphase]; exact congrArg (Option.map _) hadvance)
  | measuring value => rw [hphase] at search; cases search

end Worker

/-! ## Alone -/

/-- With one epoch and no other stake the mode word says so. -/
theorem Balanced.eq_of_epoch {ι : Type} [Fintype ι] [DecidableEq ι] {s : ModeSnapshot}
    {stake : ι → Stake} (B : Balanced s stake) {i : ι} (hi : stake i = .epoch)
    (others : ∀ j, j ≠ i → stake j = .none) : s = ⟨.sw, 1, 0⟩ := by
  have number (kind : Stake → Bool) (hkind : kind .none = false) :
      numberOf kind stake = (kind .epoch).toNat := by
    rw [numberOf_eq_add i, hi, Finset.sum_eq_zero, Nat.add_zero]
    intro j hj
    rw [others j (Finset.ne_of_mem_erase hj), hkind]
    rfl
  calc s = ⟨s.mode, s.deferred, s.undeferred⟩ := rfl
    _ = ⟨.sw, 1, 0⟩ := by
      rw [B.epoch i hi, B.deferred, B.undeferred, number _ rfl, number _ rfl]
      rfl

namespace Chronicle

variable {ι : Type} [DecidableEq ι] {r : Runtime} {c c' : Chronicle ι} {i : ι} {n : Nat}

/-- Every other worker is new or was dropped. -/
def Lone (r : Runtime) (c : Chronicle ι) (i : ι) : Prop :=
  ∀ j, j ≠ i → c.system.worker j = .new r ∨ (c.phase j).isRetired = true

/-- No region of the last call aborted by a change of the mode. -/
def Unchanged (c : Chronicle ι) (i : ι) : Prop :=
  ∀ t ∈ (c.notes i).trials, t.changesMode = false

/-- One worker goes on with its call, in so many moves, and nobody else does anything. Faults may be
injected. -/
inductive Alone (i : ι) (c : Chronicle ι) : Nat → Chronicle ι → Prop
  | refl : Alone i c 0 c
  | act {n : Nat} {c₁ c₂ : Chronicle ι} (before : Alone i c n c₁) (q : Request)
      (spares : q.SparesMode) (same : q ≠ .call) {reply : Reply}
      (acts : c₁.act i q = some (reply, c₂)) : Alone i c (n + q.isMove.toNat) c₂
  | faults {n : Nat} {c₁ : Chronicle ι} (before : Alone i c n c₁) (f : Faults → Faults) :
      Alone i c n (c₁.withFaults f)

/-- A search after so many moves. -/
structure Searching (c : Chronicle ι) (i : ι) (n : Nat) : Prop where
  /-- The call searches. -/
  phase : (c.phase i).isSearching = true
  /-- So far its regions aborted. -/
  aborted : ∀ t ∈ (c.notes i).trials, t.IsAborted
  /-- It made few moves for each. -/
  moves : n ≤ 14 * (c.notes i).trials.length + (c.phase i).rank

/-- A call has just decided for a path: its body committed in a region, or begins in an epoch of the
worker's own or under the global lock. All regions before aborted, and together they are few. -/
inductive Decided (r : Runtime) (c : Chronicle ι) (i : ι) : Prop
  /-- For hardware. -/
  | hardware {failures : UInt32} {value : Word} {before : List Trial} {writes : List Access}
      (phase : c.phase i = .hardware failures (.done (.ok value)))
      (trials : (c.notes i).trials = before ++ [⟨.hardware, writes, .committed⟩])
      (aborted : ∀ t ∈ before, t.IsAborted)
      (few : before.length + 1 ≤ r.config.maxRetries.toNat)
  /-- For software. -/
  | software {place : Place} {tx : Transaction}
      (phase : c.phase i = .software place ⟨tx, .running⟩)
      (place : if (c.system.worker i).deferred then place = .epoch else place = .lock)
      (aborted : ∀ t ∈ (c.notes i).trials, t.IsAborted)
      (few : (c.notes i).trials.length ≤ r.config.maxRetries.toNat)

/-- A body of the last call panicked in a region. -/
def Panicked (c : Chronicle ι) (i : ι) : Prop :=
  ∃ t ∈ (c.notes i).trials, t.path = .hardware ∧ t.outcome = .panicked

/-- What becomes of a call of a worker that is alone. -/
inductive Course (r : Runtime) (i : ι) (c : Chronicle ι) (n : Nat) (c' : Chronicle ι) : Prop
  /-- It searches, and there is another move, but there were few regions and few moves. -/
  | searching (search : c'.Searching i n)
      (few : (c'.notes i).trials.length ≤ r.config.maxRetries.toNat)
      (moves : n ≤ 14 * r.config.maxRetries.toNat + 13)
      (another : ∃ q reply c'', q.isMove = true ∧ c'.act i q = some (reply, c''))
  /-- It decided for a path, after few moves. -/
  | decided {m k : Nat} {c₁ : Chronicle ι} (before : Alone i c m c₁) (decided : c₁.Decided r i)
      (after : Alone i c₁ k c') (total : m + k = n)
      (moves : m ≤ 14 * r.config.maxRetries.toNat + 14)
  /-- Its body panicked in a region. -/
  | panicked (panicked : c'.Panicked i)

/-- Retries in hardware are few, and who is alone falls back in time. -/
structure FallsBack (r : Runtime) (c : Chronicle ι) : Prop where
  /-- The aborts of a call, those by a change of the mode apart, are as few as the settings say. -/
  aborts : ∀ i, aborts (c.notes i).trials ≤ r.config.maxRetries.toNat
  /-- So are those of every call that returned. -/
  returned : ∀ x ∈ c.returned, HybridTM.aborts x.trials ≤ r.config.maxRetries.toNat
  /-- A call of a worker that is alone searches only so long. -/
  course : ∀ i reply c₁ n c₂, c.Lone r i → c.act i .call = some (reply, c₁) → Alone i c₁ n c₂ →
    c₂.Unchanged i → Course r i c₁ n c₂
  /-- It leaves the mode word with an epoch of the worker's own, or initial. -/
  mode : ∀ i reply c₁ n c₂, c.Lone r i → c.act i .call = some (reply, c₁) → Alone i c₁ n c₂ →
    (c₂.phase i).isResting = true →
    c₂.system.runtime.mode = if (c₂.system.worker i).deferred then ⟨.sw, 1, 0⟩ else .initial

/-! ### What stays -/

/-- Its own steps leave a worker alone. -/
theorem Lone.of_act (L : c.Lone r i) {q : Request} {reply : Reply}
    (acts : c.act i q = some (reply, c')) : c'.Lone r i := by
  obtain ⟨-, -, -, hothers⟩ := turn_of_act acts
  intro j hj
  rw [phase, (hothers j hj).1]
  exact L j hj

namespace Alone

theorem reachable (A : Alone i c n c') (h : Reachable r c) : Reachable r c' := by
  induction A with
  | refl => exact h
  | act before q spares same acts ih => exact ih.step (.act i q spares acts)
  | faults before f ih => exact ih.step (.faults f)

theorem lone (A : Alone i c n c') (L : c.Lone r i) : c'.Lone r i := by
  induction A with
  | refl => exact L
  | act before q spares same acts ih => exact ih.of_act acts
  | faults before f ih => exact ih

/-- The attempts of a call are not forgotten before the next. -/
theorem trials (A : Alone i c n c') : ∀ t ∈ (c.notes i).trials, t ∈ (c'.notes i).trials := by
  induction A with
  | refl => exact fun t ht => ht
  | @act n c₁ c₂ before q spares same reply acts ih =>
    obtain ⟨-, hnotes, -, -⟩ := turn_of_act acts
    rw [hnotes, noted, events, Notes.trials_after same]
    exact fun t ht => List.mem_append_left _ (ih t ht)
  | faults before f ih => exact ih

end Alone

/-- A run of one worker makes so many moves. -/
theorem alone_of_run {c₀ : Chronicle ι} {steps : List Request} (A : Alone i c₀ n c)
    (spares : ∀ q ∈ steps, q.SparesMode ∧ q ≠ .call)
    (h : c.run (steps.map fun q => (i, q)) = some c') :
    Alone i c₀ (n + steps.countP (·.isMove)) c' := by
  induction steps generalizing c n with
  | nil =>
    obtain rfl := Option.some.inj h
    exact A
  | cons q steps ih =>
    obtain ⟨⟨reply, c₁⟩, hact, hrest⟩ := Option.bind_eq_some_iff.1 h
    obtain ⟨hspares, hcall⟩ := spares q List.mem_cons_self
    have hmoves : n + (q :: steps).countP (·.isMove) =
        n + q.isMove.toNat + steps.countP (·.isMove) := by
      rw [List.countP_cons, Nat.add_assoc, Nat.add_comm q.isMove.toNat]
      cases q.isMove <;> rfl
    rw [hmoves]
    exact ih (.act A q hspares hcall hact) (fun q hq => spares q (List.mem_cons_of_mem _ hq)) hrest

theorem hourglasses_of_reachable (h : Reachable r c) (i : ι) :
    (c.system.worker i).context.manager.hourglasses ≤ 1 :=
  h.forall_worker (P := fun w _ => w.context.manager.hourglasses ≤ 1)
    (Manager.hourglasses_build _)
    (fun _ acts before => (posts_of_act acts).hourglasses ▸ before) i

variable [Fintype ι]

/-- Who is new or was dropped has no stake in the mode word. -/
theorem Lone.stake (L : c.Lone r i) (created : r.Created) (h : Reachable r c) (j : ι)
    (hj : j ≠ i) : c.system.stake j = .none := by
  rw [System.stake]
  rcases L j hj with hnew | hretired
  · rw [hnew]
    rfl
  · have hphase : (c.system.worker j).phase = .resting (some .retired) :=
      Phase.eq_of_isRetired hretired
    rw [Worker.stake, hphase, deferred_of_retired created h j hretired]
    rfl

/-- So the mode word says what the stake of the other is. -/
theorem Lone.mode_of_none (L : c.Lone r i) (created : r.Created) (h : Reachable r c)
    (hi : c.system.stake i = .none) : c.system.runtime.mode = .initial :=
  (System.valid_of_reachable created h.system).balanced.eq_initial fun j => by
    by_cases hj : j = i
    · rw [hj]
      exact hi
    · exact L.stake created h j hj

theorem Lone.mode_of_resting (L : c.Lone r i) (created : r.Created) (h : Reachable r c)
    (hi : (c.phase i).isResting = true) :
    c.system.runtime.mode = if (c.system.worker i).deferred then ⟨.sw, 1, 0⟩ else .initial := by
  obtain ⟨last, hphase⟩ := Phase.isResting_iff.1 hi
  have hstake : c.system.stake i = if (c.system.worker i).deferred then .epoch else .none := by
    show (c.phase i).stake _ = _
    rw [hphase]
    rfl
  split
  · next hd =>
    rw [if_pos hd] at hstake
    exact (System.valid_of_reachable created h.system).balanced.eq_of_epoch hstake
      (L.stake created h)
  · next hd =>
    rw [if_neg hd] at hstake
    exact L.mode_of_none created h hstake

omit [Fintype ι] in
/-- There is room for the ticks of every hardware window. -/
theorem hasRoom_of_reachable (h : Reachable r c) (i : ι) :
    (c.system.worker i).heuristic.HasRoom 0 :=
  h.forall_worker (P := fun w _ => w.heuristic.HasRoom 0) (Worker.hasRoom_new r)
    (fun _ acts R => Worker.hasRoom_of_act (worker_of_act acts) R) i

/-- Nobody else holds the clock or the token, and a search makes another move. -/
theorem Lone.exists_move (L : c.Lone r i) (created : r.Created) (h : Reachable r c)
    (search : (c.phase i).isSearching = true) :
    ∃ q reply c', q.isMove = true ∧ c.act i q = some (reply, c') := by
  have hclock : c.shared.clock.isLocked = false := by
    rw [← Bool.toNat_eq_zero, clock_of_reachable created h]
    refine Finset.sum_eq_zero fun j _ => ?_
    by_cases hj : j = i
    · subst hj
      exact Phase.clockHoldings_of_isSearching (buffers_of_reachable h j) search
    · rcases L j hj with hnew | hretired
      · rw [phase, hnew]
        rfl
      · rw [Phase.eq_of_isRetired hretired]
        rfl
  have htoken : c.system.runtime.engine.token.toNat =
      (c.system.worker i).context.manager.holdings := by
    rw [token_of_reachable created h, Finset.sum_eq_single_of_mem i (Finset.mem_univ i)]
    · exact if_neg (Phase.not_isRetired_of_isSearching search)
    · intro j _ hj
      rcases L j hj with hnew | hretired
      · rw [hnew]
        exact Policy.holdings_build _
      · exact if_pos hretired
  obtain ⟨q, hmove, hact⟩ := Worker.exists_move search (L.mode_of_none created h) hclock
    (Manager.mayBegin_of_holdings (hourglasses_of_reachable h i) htoken) (hasRoom_of_reachable h i)
  obtain ⟨⟨reply, w, r'⟩, hact⟩ := Option.isSome_iff_exists.1 hact
  exact ⟨q, reply, _, hmove, by rw [act, System.act, hact]; rfl⟩

/-! ### The course of a call -/

/-- What an errand of the call swaps was just loaded. -/
theorem steady_of_alone (created : r.Created) (h : Reachable r c) (A : Alone i c n c')
    (S : (c.phase i).Steady c.shared) : (c'.phase i).Steady c'.shared := by
  induction A with
  | refl => exact S
  | act before q spares same acts ih =>
    obtain ⟨T, -, -, -⟩ := turn_of_act acts
    exact T.steady ih (System.valid_of_reachable created (before.reachable h).system).word
  | faults before f ih => exact ih

/-- A step of a search that nobody disturbs goes on with it, or is the last. -/
theorem Searching.act (S : c.Searching i n) (created : r.Created) (h : Reachable r c)
    (L : c.Lone r i) (steady : (c.phase i).Steady c.shared) {q : Request} (spares : q.SparesMode)
    (hq : q ≠ .call) {reply : Reply} (acts : c.act i q = some (reply, c'))
    (unchanged : c'.Unchanged i) :
    c'.Searching i (n + q.isMove.toNat) ∨ c'.Decided r i ∨ c'.Panicked i := by
  obtain ⟨T, hnotes, -, -⟩ := turn_of_act acts
  have hreach := h.step (.act i q spares acts)
  have A := allows_of_reachable hreach i
  have htrials : (c'.notes i).trials = (c.notes i).trials ++
      (((c.phase i).turns q (c'.phase i) (c.notes i).writes).filterMap Event.trial?) := by
    rw [hnotes, noted, events, Notes.trials_after hq]
  have hlength : HybridTM.aborts (c.notes i).trials = (c.notes i).trials.length :=
    aborts_eq_length S.aborted fun t ht => unchanged t (htrials ▸ List.mem_append_left _ ht)
  cases T.search (c.notes i).writes hq S.phase steady (L.mode_of_none created h) with
  | searching phase aborted rank =>
    refine Or.inl ⟨phase, ?_, ?_⟩
    · rw [htrials]
      exact List.forall_mem_append.2 ⟨S.aborted, aborted⟩
    · have := S.moves
      rw [htrials, List.length_append]
      omega
  | @hardware failures value writes phase trials =>
    rw [trials] at htrials
    refine Or.inr (Or.inl (.hardware phase htrials S.aborted ?_))
    rw [phase, htrials, HybridTM.aborts, List.countP_append] at A
    have hbelow := UInt32.lt_iff_toNat_lt.1 A.2
    have hle := A.1
    rw [HybridTM.aborts] at hlength
    omega
  | @software place tx phase hplace trials =>
    rw [trials, List.append_nil] at htrials
    have sound := (System.valid_of_reachable created hreach.system).sound i
    refine Or.inr (Or.inl (.software phase ?_ (htrials ▸ S.aborted) ?_))
    · rw [show (c'.system.worker i).phase = _ from phase] at sound
      cases place with
      | epoch => rw [if_pos (sound.1.2 rfl)]
      | joined => exact absurd rfl hplace
      | lock =>
        have hd : ¬ (c'.system.worker i).deferred = true := by
          intro hd
          cases sound.1.1 hd
        rw [if_neg hd]
    · rw [htrials] at A ⊢
      exact hlength ▸ A.le
  | @panicked writes trials =>
    rw [trials] at htrials
    refine Or.inr (Or.inr ⟨⟨.hardware, writes, .panicked⟩, ?_, rfl, rfl⟩)
    rw [htrials]
    exact List.mem_append_right _ (List.mem_singleton_self _)

omit [Fintype ι] in
/-- A search has made few moves. -/
theorem Searching.few (S : c.Searching i n) (h : Reachable r c) (unchanged : c.Unchanged i) :
    (c.notes i).trials.length ≤ r.config.maxRetries.toNat ∧
      n ≤ 14 * r.config.maxRetries.toNat + 13 := by
  have hlength := (allows_of_reachable h i).le
  rw [aborts_eq_length S.aborted unchanged] at hlength
  have hrank := (c.phase i).rank_le
  have hmoves := S.moves
  omega

/-- The call of a worker that is alone decides for a path in time. -/
theorem course_of_alone (created : r.Created) (h : Reachable r c) (L : c.Lone r i) {reply : Reply}
    {c₁ c₂ : Chronicle ι} (acts : c.act i .call = some (reply, c₁)) (A : Alone i c₁ n c₂)
    (unchanged : c₂.Unchanged i) : Course r i c₁ n c₂ := by
  obtain ⟨-, hphase, hempty⟩ := call_of_act acts
  have h₁ : Reachable r c₁ := h.step (.act i .call trivial acts)
  have L₁ := L.of_act acts
  have steady : (c₁.phase i).Steady c₁.shared := by
    rw [hphase]
    intro _ _ _ _ hswap
    cases hswap
  have course {n : Nat} {c' : Chronicle ι} (A : Alone i c₁ n c') (unchanged : c'.Unchanged i)
      (S : c'.Searching i n) : Course r i c₁ n c' := by
    obtain ⟨few, moves⟩ := S.few (A.reachable h₁) unchanged
    exact .searching S few moves ((A.lone L₁).exists_move created (A.reachable h₁) S.phase)
  -- By induction on the steps. Until the call decides, what is carried along is its search so far.
  induction A with
  | refl =>
    refine course .refl unchanged ⟨by rw [hphase]; rfl, ?_, Nat.zero_le _⟩
    rw [hempty]
    exact nofun
  | @act n c' c'' before q spares same reply acts ih =>
    have A := Alone.act before q spares same acts
    have later := (Alone.act .refl q spares same acts).trials
    have hbefore : c'.Unchanged i := fun t ht => unchanged t (later t ht)
    cases ih hbefore with
    | searching S few moves another =>
      rcases S.act created (before.reachable h₁) (before.lone L₁)
        (steady_of_alone created h₁ before steady) spares same acts unchanged with S | D | P
      · exact course A unchanged S
      · have := q.isMove.toNat_le
        exact .decided A D .refl rfl (by omega)
      · exact .panicked P
    | decided hm D hk total moves =>
      exact .decided hm D (.act hk q spares same acts) (by omega) moves
    | panicked P =>
      obtain ⟨t, ht, hpanicked⟩ := P
      exact .panicked ⟨t, later t ht, hpanicked⟩
  | @faults n c' before f ih =>
    cases ih unchanged with
    | searching S few moves another =>
      exact course (.faults before f) unchanged ⟨S.phase, S.aborted, S.moves⟩
    | decided hm D hk total moves => exact .decided hm D (.faults hk f) total moves
    | panicked P => exact .panicked P

/-- Retries in hardware are few, whatever the bodies and the other workers do, and who is alone
falls back in time. -/
theorem fallsBack_of_reachable (created : r.Created) (h : Reachable r c) : c.FallsBack r where
  aborts i := (allows_of_reachable h i).le
  returned _ hx := aborts_of_returned h hx
  course _ _ _ _ _ L acts A unchanged := course_of_alone created h L acts A unchanged
  mode i _ _ _ _ L acts A rests :=
    (A.lone (L.of_act acts)).mode_of_resting created
      (A.reachable (h.step (.act i .call trivial acts))) rests

/-- Two workers share a runtime that allows two retries, and one is dropped. The other calls, and
two regions abort themselves before its body commits under the global lock. -/
theorem fallsBack_of_two_aborts :
    ∃ (r : Runtime) (c c₁ c₂ : Chronicle Bool) (n : Nat) (reply : Reply), r.Created ∧
      Reachable r c ∧ c.Lone r false ∧ c.act false .call = some (reply, c₁) ∧ Alone false c₁ n c₂ ∧
      c₂.Unchanged false ∧ HybridTM.aborts (c₂.notes false).trials = 2 ∧
      c₂.log.filterMap Event.commit? = [.glock] ∧ c₂.system.runtime.mode = .initial ∧
      Course r false c₁ n c₂ := by
  let region : List Request := [.advance, .advance, .advance, .abort 7, .endBody (.ok 5), .advance,
    .account 1]
  let lock : List Request := [.advance, .advance, .advance, .advance, .advance, .endBody (.ok 5),
    .advance, .advance, .advance]
  let steps : List Request := region ++ region ++ lock
  have facts : ((Runtime.create (.emulated (.withCapacity 8)) { maxRetries := 2 } [1]
      .empty).toOption.bind fun r =>
        ((start r : Chronicle Bool).run [(true, .retire)]).map fun c =>
          ((c.act false .call).bind fun (_, c₁) => c₁.run (steps.map fun q => (false, q))).any
            fun c₂ => (c.phase true).isRetired = true ∧
              (∀ t ∈ (c₂.notes false).trials, t.changesMode = false) ∧
                HybridTM.aborts (c₂.notes false).trials = 2 ∧
                  c₂.log.filterMap Event.commit? = [.glock] ∧
                    c₂.system.runtime.mode = .initial) = some true := by
    decide +kernel
  obtain ⟨r, c, hcreate, hreach, hc⟩ := reachable_of_run (by simp [Request.SparesMode]) facts
  obtain ⟨hsome, hfacts⟩ := (Option.any_eq_true_iff_get _ _).1 hc
  obtain ⟨c₂, hc₂⟩ := Option.isSome_iff_exists.1 hsome
  obtain ⟨⟨reply, c₁⟩, hcall, hrun⟩ := Option.bind_eq_some_iff.1 hc₂
  simp only [hc₂, Option.get_some] at hfacts
  obtain ⟨hretired, unchanged, haborts, hcommits, hmode⟩ := of_decide_eq_true hfacts
  have created : r.Created := ⟨_, _, _, _, hcreate⟩
  have lone : c.Lone r false := fun j hj => by
    cases j with
    | false => exact absurd rfl hj
    | true => exact Or.inr hretired
  have alone := alone_of_run .refl (by simp [steps, region, lock, Request.SparesMode]) hrun
  exact ⟨r, c, c₁, c₂, _, reply, created, hreach, lone, hcall, alone, unchanged, haborts, hcommits,
    hmode, (fallsBack_of_reachable created hreach).course _ _ _ _ _ lone hcall alone unchanged⟩

end Chronicle

end HybridTM
