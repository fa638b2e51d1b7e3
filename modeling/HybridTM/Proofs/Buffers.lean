import HybridTM.Proofs.Chronicle
import HybridTM.Proofs.Order
import HybridTM.Proofs.Soundness

/-!
# What attempts hold

While an attempt is under way its buffer holds the writes of its body, and a serial one holds the
clock; when no attempt is under way there is nothing to hold (`Phase.Buffers`). Every turn keeps
this, however the body ends (`Worker.Turn.buffers`). Words of data change only when an attempt
commits, by the writes of its body (`Worker.Turn.effects`), and the clock is locked just while a
serial attempt is under way (`Worker.Turn.clock`).
-/

set_option autoImplicit false

namespace HybridTM

/-! ## The invariant -/

/-- A transaction whose attempt is under way after the given writes. -/
structure Transaction.Buffers (tx : Transaction) (writes : List Access) : Prop where
  /-- It has begun and not yet finished. -/
  active : tx.active = true
  /-- Its body wrote words of data only. -/
  within : Within Runtime.IsData writes
  /-- The writes are buffered. -/
  holds : tx.writes.Holds writes
  /-- An optimistic attempt is a writer once there is a write. -/
  readOnly : tx.role.isIrrevocable = false → (tx.role = .readOnly ↔ writes = [])
  /-- The clock was free at its start. -/
  even : (⟨tx.start⟩ : Clock).isLocked = false

/-- A region that is under way after the given writes. -/
structure Region.Buffers (r : Region) (supported : Bool) (writes : List Access) : Prop where
  /-- There are regions. -/
  supported : supported = true
  /-- Its body wrote words of data only. -/
  within : Within Runtime.IsData writes
  /-- Unless it is doomed the writes are buffered. -/
  holds : r.doomed = none → r.writes.Holds writes

/-- What a hardware execution holds. -/
def Execution.Buffers (supported : Bool) (writes : List Access) : Execution → Prop
  | .starting | .done _ => writes = []
  | .running r | .returned r _ | .hook _ r _ | .committing r _ => r.Buffers supported writes

/-- What a software call holds. -/
def Call.Buffers (call : Call) (writes : List Access) : Prop :=
  match call.stage with
  | .starting => call.tx.active = false ∧ writes = []
  | _ => call.tx.Buffers writes

/-- What an attempt in a phase holds. -/
def Phase.Buffers (supported : Bool) (writes : List Access) : Phase → Prop
  | .checking _ r => r.Buffers supported writes ∧ writes = []
  | .hardware _ x => x.Buffers supported writes
  | .software _ call => call.Buffers writes
  | .resting _ | .dispatch _ | .switching _ _ | .measuring _ => writes = []

theorem within_nil (P : Addr → Prop) : Within P [] := nofun

namespace Transaction.Buffers

variable {tx tx' : Transaction} {writes : List Access} {s s' : Shared}

theorem begin (tx : Transaction) (c : Clock) : (tx.begin c).Buffers [] where
  active := rfl
  within := within_nil _
  holds := WriteLog.holds_empty
  readOnly _ := ⟨fun _ => rfl, fun _ => rfl⟩
  even := c.isLocked_snapshot

theorem beginExclusive (tx : Transaction) (c : Clock) : (tx.beginExclusive c).Buffers [] where
  active := rfl
  within := within_nil _
  holds := WriteLog.holds_empty
  readOnly h := by cases h
  even := c.isLocked_snapshot

theorem beginSerial {c c' : Clock} (h : tx.beginSerial c = some (tx', c')) : tx'.Buffers [] := by
  obtain ⟨now, hnow, -, rfl⟩ := beginSerial_eq_some h
  exact ⟨rfl, within_nil _, WriteLog.holds_empty, fun h => (by cases h),
    Clock.isLocked_unlocked hnow⟩

/-- A read moves the start to a value that the clock has when it is free. -/
theorem read (B : tx.Buffers writes) {a : Addr} {mask : Mask} {result : Except TxError Word}
    (h : tx.read s a mask = some (result, tx')) : tx'.Buffers writes := by
  obtain ⟨hrole, hactive, hwrites⟩ := kept_read h
  refine ⟨hactive.trans B.active, B.within, by rw [hwrites]; exact B.holds,
    by rw [hrole]; exact B.readOnly, ?_⟩
  obtain ⟨bits, covered, -, h | h | h | h⟩ := read_cases h
  · obtain ⟨-, -, rfl⟩ := h
    exact B.even
  · obtain ⟨-, rfl, -⟩ := h
    exact B.even
  · obtain ⟨-, start, hstart, -, rfl⟩ := h
    unfold currentStart at hstart
    split at hstart
    · obtain rfl := Except.ok.inj (Option.some.inj hstart)
      exact B.even
    · exact Clock.isLocked_unlocked (validate_eq_some_ok_iff.1 hstart).1
  · obtain ⟨-, e, -, -, rfl⟩ := h
    exact B.even

theorem write (B : tx.Buffers writes) {a : Addr} (ha : a ≠ Runtime.modeAddr) (v : Word)
    (mask : Mask) : (tx.write a v mask).Buffers (writes ++ [.write a v mask]) where
  active := B.active
  within := within_concat.2 ⟨B.within, ha⟩
  holds := B.holds.write a v mask
  readOnly h := by
    have hwritten : writes ++ [Access.write a v mask] ≠ [] := by simp
    rcases tx.role_write a v mask with ⟨hrole, -⟩ | ⟨hrole, hne⟩
    · rw [hrole]
      exact ⟨nofun, fun h => absurd h hwritten⟩
    · rw [hrole]
      exact ⟨fun h => absurd h hne, fun h => absurd h hwritten⟩
  even := B.even

/-- A commit that fails leaves everything in the buffer. -/
theorem failed (B : tx.Buffers writes) {err : TxError}
    (h : tx.commit s = some (.error err, tx', s')) : tx'.Buffers writes := by
  obtain ⟨-, -, -, n, rfl⟩ := commit_failed h
  exact ⟨B.active, B.within, B.holds, B.readOnly, B.even⟩

/-- A commit publishes what is in the buffer. -/
theorem commit (B : tx.Buffers writes) {kind : CommitKind}
    (h : tx.commit s = some (.ok kind, tx', s')) : s'.memory = after writes s.memory := by
  rcases commit_cases h with ⟨hrole, -, -, rfl⟩ | ⟨-, now, locked, -, -, -, rfl, -⟩ |
    ⟨-, -, herror, -⟩ | ⟨-, -, rfl, -⟩ | ⟨-, -, rfl, -⟩
  · -- There is nothing in the buffer of a reader.
    rw [(B.readOnly (by rw [hrole]; rfl)).1 hrole]
    rfl
  · exact B.holds _
  · cases herror
  · exact B.holds _
  · exact B.holds _

end Transaction.Buffers

namespace Region.Buffers

variable {b b' : Backend} {r r' : Region} {writes : List Access} {m m' : Memory} {a : Addr}
  {mask : Mask}

theorem read (B : r.Buffers b.isSupported writes) {result : Except HardwareAbort Word}
    (h : b.read r m a mask = (result, r')) : r'.Buffers b.isSupported writes := by
  refine ⟨B.supported, B.within, fun hdoomed => ?_⟩
  rcases Backend.read_cases h with ⟨abort, -, -, -, hdoom⟩ | ⟨hsound, -, hw, -⟩
  · exact absurd hdoomed (hdoom B.supported)
  · rw [hw]
    exact B.holds hsound

/-- A write that is refused dooms the region. -/
theorem write (B : r.Buffers b.isSupported writes) (ha : a ≠ Runtime.modeAddr) {v : Word}
    {result : Except HardwareAbort Unit} (h : b.write r a v mask = (result, r')) :
    r'.Buffers b.isSupported (writes ++ [.write a v mask]) := by
  refine ⟨B.supported, within_concat.2 ⟨B.within, ha⟩, fun hdoomed => ?_⟩
  rcases Backend.write_cases h with ⟨abort, -, -, -, hdoom⟩ | ⟨hsound, -, rfl⟩
  · exact absurd hdoomed (hdoom B.supported)
  · exact (B.holds hsound).write a v mask

theorem doom {supported : Bool} (B : r.Buffers supported writes) (abort : HardwareAbort) :
    (r.doom abort).Buffers supported writes :=
  ⟨B.supported, B.within, nofun⟩

/-- A commit publishes what is in the buffer. -/
theorem commit {supported : Bool} (B : r.Buffers supported writes) (sound : r.doomed = none)
    (h : b.commit r m = .ok (b', m')) : m' = after writes m := by
  obtain ⟨-, rfl, -⟩ := Backend.commit_ok h
  exact B.holds sound m

end Region.Buffers

/-- With no attempt under way nothing has been written. -/
theorem Phase.Buffers.eq_nil {supported : Bool} {writes : List Access} {p : Phase}
    (B : p.Buffers supported writes) (h : p.attempt? = none) : writes = [] := by
  cases p with
  | checking failures r => cases h
  | hardware failures x =>
    cases x with
    | starting => exact B
    | done result => exact B
    | _ => cases h
  | software place call =>
    obtain ⟨tx, stage⟩ := call
    cases stage with
    | starting => exact B.2
    | _ => cases h
  | _ => exact B

/-- Regions stay buffered as long as there are regions. -/
theorem Phase.Buffers.mono {supported supported' : Bool} {writes : List Access} {p : Phase}
    (B : p.Buffers supported writes) (h : supported = true → supported' = true) :
    p.Buffers supported' writes := by
  have region {r : Region} (R : r.Buffers supported writes) : r.Buffers supported' writes :=
    ⟨h R.supported, R.within, R.holds⟩
  cases p with
  | checking failures r => exact ⟨region B.1, B.2⟩
  | hardware failures x =>
    cases x with
    | starting => exact B
    | done result => exact B
    | running r => exact region B
    | returned r value => exact region B
    | hook name r value => exact region B
    | committing r value => exact region B
  | _ => exact B

/-- A request that is no write writes nothing. -/
theorem Phase.Buffers.written {supported : Bool} {writes : List Access} {p : Phase}
    (B : p.Buffers supported writes) : p.written .flush writes = writes := by
  unfold Phase.written
  cases h : p.attempt? with
  | none => exact (B.eq_nil h).symm
  | some path => rfl

/-! ## What is published -/

namespace Phase

variable {p p' : Phase} {q : Request} {s : Shared} {writes : List Access}

/-- Swaps publish nothing. -/
theorem published_events : (p.events q s p' writes).flatMap Event.published =
    (p.turns q p' writes).flatMap Event.published := by
  have hswaps : (p.swaps q s p').flatMap Event.published = [] := by
    rw [List.flatMap_eq_nil_iff]
    intro e he
    rcases eq_of_mem_swaps he with rfl | rfl <;> rfl
  rw [events, List.flatMap_append, hswaps, List.nil_append]

/-- An attempt that commits publishes the writes of its body. -/
theorem published_committed {path : Path} (hp : p.attempt? = some path)
    (hp' : p'.attempt? = none) (houtcome : p.outcome q p' = .committed) :
    (p.turns q p' writes).flatMap Event.published = writes := by
  rw [turns, hp, hp', houtcome]
  exact List.append_nil writes

end Phase

/-! ## Turns -/

namespace Worker.Turn

variable {b b' : Backend} {s s' : Shared} {d d' : Bool} {p p' : Phase} {q : Request}
  {reply : Reply} {writes : List Access}

/-- What every turn keeps: with no attempt under way nothing has been written, and otherwise
attempts hold what was written. -/
theorem buffers (T : Turn b s d p q reply d' p' s' b') (B : p.Buffers b.isSupported writes)
    (hq : q.SparesMode) : p'.Buffers b'.isSupported (p'.written q writes) := by
  have destined {errand : Errand} {changed : Bool} {clock : Clock} {supported : Bool} :
      (destination clock changed errand).Buffers supported
        ((destination clock changed errand).written .advance writes) := by
    cases errand <;> cases changed <;> first | rfl | exact ⟨rfl, rfl⟩
  cases T with
  | call alive => rfl
  | retire outside => rfl
  | retireEpoch inside => rfl
  | flush phase => rw [B.written]; exact B
  | toEpoch failures inside => exact ⟨rfl, rfl⟩
  | toJoin failures outside change => rfl
  | toLock failures outside => rfl
  | toHardware failures outside => exact B
  | enter failures enters =>
    obtain ⟨-, hwrites, -, -, hsupported⟩ := Backend.enter_ok enters
    obtain rfl : writes = [] := B
    refine ⟨⟨hsupported, within_nil _, fun _ => ?_⟩, rfl⟩
    rw [hwrites]
    exact WriteLog.holds_empty
  | check failures reads hardware => exact B.1.read reads
  | refuse failures r abort => rfl
  | execution failures turn past =>
    cases turn with
    | refused enters => rfl
    | entered enters => exact absurd rfl (past _)
    | doomed value doomed => rfl
    | hook value name sound => exact B
    | ready value sound => exact B
    | resumed name r value => exact B
    | commit value commits => rfl
    | conflict value fails => rfl
  | settle failures value ticks => rfl
  | retry failures failures' abort ticks => rfl
  | toSoftware failures failures' abort ticks => rfl
  | load change => rfl
  | inapplicable change => exact destined
  | swap found mode => exact destined
  | swapMode found mode => rfl
  | reload lost persistent => rfl
  | giveUp lost persistent => exact destined
  | announce seen next => exact destined
  | @software place call call' s' turn =>
    obtain ⟨tx, stage⟩ := call
    cases turn with
    | exclusive hstage only =>
      obtain rfl : stage = .starting := hstage
      obtain rfl := B.2
      exact Transaction.Buffers.beginExclusive tx s.clock
    | optimistic hstage others =>
      obtain rfl : stage = .starting := hstage
      obtain rfl := B.2
      exact Transaction.Buffers.begin tx s.clock
    | serial hstage others begins =>
      obtain rfl : stage = .starting := hstage
      obtain rfl := B.2
      exact Transaction.Buffers.beginSerial begins
    | failed hstage fails =>
      obtain rfl : stage = _ := hstage
      exact Transaction.Buffers.failed B fails
    | rollback hstage =>
      obtain rfl : stage = _ := hstage
      have hactive : tx.active = true := Transaction.Buffers.active B
      refine ⟨?_, rfl⟩
      simp only [Call.rolledBack, Transaction.rollback, if_pos hactive]
      rfl
  | commit place turn => cases place <;> rfl
  | stay value ticks => rfl
  | goBack value ticks => rfl
  | readRegion failures reads => exact Region.Buffers.read B reads
  | readSoftware place reads => exact Transaction.Buffers.read B reads
  | writeRegion failures writes => exact Region.Buffers.write B hq writes
  | writeSoftware place tx a v mask => exact Transaction.Buffers.write B hq v mask
  | abort failures r code => exact Region.Buffers.doom B _
  | endRegion failures r result =>
    cases result with
    | ok value => exact B
    | error err => rfl
  | endSoftware place tx result => cases result <;> exact B
  | panicRegion failures r => rfl
  | panicSoftware place tx => cases place <;> rfl

/-- Words of data only change by what a turn publishes. -/
theorem effects (T : Turn b s d p q reply d' p' s' b') (S : p.Sound d)
    (B : p.Buffers b.isSupported writes) : Memory.SameOn Runtime.IsData s'.memory
      (after ((p.events q s p' writes).flatMap Event.published) s.memory) := by
  have same : Memory.SameOn Runtime.IsData s.memory s.memory := .refl _ _
  -- The mode word is no word of data.
  have modes (next : ModeSnapshot) :
      Memory.SameOn Runtime.IsData (s.setMode next).memory s.memory := .write _ (fun h => h rfl) _
  rw [Phase.published_events]
  cases T with
  | flush => rw [Phase.turns_self]; exact same
  | execution failures turn past =>
    cases turn with
    | entered enters => exact absurd rfl (past _)
    | commit value commits =>
      rw [Region.Buffers.commit B S.2.2 commits, Phase.published_committed rfl rfl rfl]
      exact .refl _ _
    | _ => exact same
  | inapplicable change =>
    rw [Phase.turns_of_none rfl (attempt?_destination _ _ _)]
    exact same
  | swap found mode =>
    rw [Phase.turns_of_none rfl (attempt?_destination _ _ _)]
    exact modes _
  | swapMode found mode => exact modes _
  | giveUp lost persistent =>
    rw [Phase.turns_of_none rfl (attempt?_destination _ _ _)]
    exact same
  | announce seen next =>
    rw [Phase.turns_of_none rfl (attempt?_destination _ _ _)]
    exact same
  | @software place call call' s' turn =>
    obtain ⟨tx, stage⟩ := call
    cases turn with
    | failed hstage fails =>
      obtain rfl : stage = _ := hstage
      rw [(Transaction.commit_failed fails).2.2.1]
      exact same
    | exclusive hstage only =>
      obtain rfl : stage = _ := hstage
      exact same
    | optimistic hstage others =>
      obtain rfl : stage = _ := hstage
      exact same
    | serial hstage others begins =>
      obtain rfl : stage = _ := hstage
      exact same
    | rollback hstage =>
      obtain rfl : stage = _ := hstage
      exact same
  | @commit place call value s' turn =>
    obtain ⟨tx, stage⟩ := call
    cases turn with
    | commit hstage commits =>
      obtain rfl : stage = _ := hstage
      rw [Transaction.Buffers.commit B commits,
        Phase.published_committed rfl (attempt?_epilogue _ _) (by cases place <;> rfl)]
      exact .refl _ _
  | endRegion failures r result => cases result <;> exact same
  | endSoftware place tx result => cases result <;> exact same
  | panicSoftware place tx => cases place <;> exact same
  | _ => exact same

end Worker.Turn

/-! ## The clock -/

/-- How often an attempt holds the clock. -/
def Transaction.clockHoldings (tx : Transaction) : Nat := if tx.HoldsClock then 1 else 0

/-- How often the attempt in a phase holds the clock. -/
def Phase.clockHoldings : Phase → Nat
  | .software _ call => call.tx.clockHoldings
  | _ => 0

namespace Transaction

variable {tx tx' : Transaction} {writes : List Access} {s s' : Shared} {others : Nat}

theorem clockHoldings_of_idle (h : tx.active = false) : tx.clockHoldings = 0 := by
  rw [clockHoldings, if_neg]
  rintro ⟨hactive, -⟩
  rw [h] at hactive
  cases hactive

theorem clockHoldings_of_role (h : tx.role ≠ .serial) : tx.clockHoldings = 0 := by
  rw [clockHoldings, if_neg fun hholds => h hholds.2]

theorem clockHoldings_congr (hrole : tx'.role = .serial ↔ tx.role = .serial)
    (hactive : tx'.active = tx.active) : tx'.clockHoldings = tx.clockHoldings := by
  have hholds : tx'.HoldsClock ↔ tx.HoldsClock := by
    simp only [HoldsClock, hrole, hactive]
  exact if_congr hholds rfl rfl

/-- An attempt that ends without a commit leaves the clock to the others. -/
theorem Buffers.released (B : tx.Buffers writes) {c : Clock}
    (h : c.isLocked.toNat = tx.clockHoldings + others) :
    (tx.released c).isLocked.toNat = others := by
  rw [released_eq]
  rw [clockHoldings] at h
  split
  · next hholds =>
    have := c.isLocked.toNat_le
    rw [if_pos hholds] at h
    rw [Clock.unlock, Clock.isLocked_add_two, B.even]
    show 0 = others
    omega
  · next hholds =>
    rw [if_neg hholds, Nat.zero_add] at h
    exact h

/-- So does one that commits. -/
theorem Buffers.commit_clock (B : tx.Buffers writes) {kind : CommitKind}
    (h : s.clock.isLocked.toNat = tx.clockHoldings + others)
    (hc : tx.commit s = some (.ok kind, tx', s')) : s'.clock.isLocked.toNat = others := by
  rcases commit_cases hc with ⟨hrole, -, -, rfl⟩ | ⟨hrole, now, locked, hlock, hnow, -, rfl, -⟩ |
    ⟨-, -, herror, -⟩ | ⟨hrole, -, rfl, -⟩ | ⟨hrole, -, rfl, -⟩
  · rwa [clockHoldings_of_role (by rw [hrole]; decide), Nat.zero_add] at h
  · -- A writer takes the clock where it is free.
    have heven : (⟨now⟩ : Clock).isLocked = false := by
      rcases hnow with rfl | hvalid
      · exact B.even
      · exact Clock.isLocked_unlocked (validate_eq_some_ok_iff.1 hvalid).1
    obtain ⟨rfl, rfl⟩ := Clock.lock?_eq_some_iff.1 hlock
    rw [clockHoldings_of_role (by rw [hrole]; decide), Nat.zero_add] at h
    have hfree : s.clock.isLocked = false := heven
    rw [hfree] at h
    simp only [Clock.unlock, Clock.isLocked_add_two, heven]
    exact h
  · cases herror
  · have hreleased := B.released h
    rwa [released_eq, if_pos ⟨B.active, hrole⟩] at hreleased
  · rwa [clockHoldings_of_role (by rw [hrole]; decide), Nat.zero_add] at h

end Transaction

namespace Worker.Turn

variable {b b' : Backend} {s s' : Shared} {d d' : Bool} {p p' : Phase} {q : Request}
  {reply : Reply} {writes : List Access}

/-- A panic ends the attempt under way and leaves memory alone. -/
theorem panics (T : Turn b s d p .panic reply d' p' s' b') (writes : List Access) :
    s'.memory = s.memory ∧
      ∃ path, p.events .panic s p' writes = [.ended ⟨path, writes, .panicked⟩] := by
  cases T with
  | panicRegion failures r => exact ⟨rfl, .hardware, rfl⟩
  | panicSoftware place tx => exact ⟨rfl, .ofRole tx.role, by cases place <;> rfl⟩

/-- However often others hold the clock, a turn only takes and releases it for its own attempt. -/
theorem clock (T : Turn b s d p q reply d' p' s' b') (B : p.Buffers b.isSupported writes)
    {others : Nat} (h : s.clock.isLocked.toNat = p.clockHoldings + others) :
    s'.clock.isLocked.toNat = p'.clockHoldings + others := by
  have destined {errand : Errand} {changed : Bool} {c : Clock} :
      (destination c changed errand).clockHoldings = 0 := by
    cases errand <;> cases changed <;> rfl
  cases T with
  | toEpoch failures inside =>
    rw [Phase.clockHoldings, Transaction.clockHoldings_of_idle rfl]
    exact h
  | inapplicable change => rw [destined]; exact h
  | swap found mode => rw [destined]; exact h
  | giveUp lost persistent => rw [destined]; exact h
  | announce seen next => rw [destined]; exact h
  | @software place call call' s' turn =>
    obtain ⟨tx, stage⟩ := call
    cases turn with
    | exclusive hstage only =>
      obtain rfl : stage = .starting := hstage
      rw [Phase.clockHoldings, Transaction.clockHoldings_of_idle B.1] at h
      rw [Phase.clockHoldings, Transaction.clockHoldings_of_role (fun hrole => by cases hrole)]
      exact h
    | optimistic hstage others =>
      obtain rfl : stage = .starting := hstage
      rw [Phase.clockHoldings, Transaction.clockHoldings_of_idle B.1] at h
      rw [Phase.clockHoldings, Transaction.clockHoldings_of_role (fun hrole => by cases hrole)]
      exact h
    | serial hstage others begins =>
      obtain rfl : stage = .starting := hstage
      rw [Phase.clockHoldings, Transaction.clockHoldings_of_idle B.1] at h
      obtain ⟨now, hnow, rfl, rfl⟩ := Transaction.beginSerial_eq_some begins
      have hfree := (Clock.unlocked?_eq_some_iff.1 hnow).1
      have hholds : ({ tx.reset .serial with
          start := now, lockAttempts := tx.lockAttempts + 1 } : Transaction).HoldsClock :=
        ⟨rfl, rfl⟩
      rw [hfree, Bool.toNat_false, Nat.zero_add] at h
      simp only [Phase.clockHoldings, Transaction.clockHoldings, if_pos hholds,
        Clock.isLocked_add_one, Clock.isLocked_unlocked hnow, ← h]
      rfl
    | failed hstage fails =>
      obtain ⟨-, -, rfl, n, rfl⟩ := Transaction.commit_failed fails
      exact h
    | rollback hstage =>
      obtain rfl : stage = _ := hstage
      have hidle : (Call.rolledBack tx s.clock).active = false := by
        simp only [Call.rolledBack, Transaction.rollback, if_pos (Transaction.Buffers.active B)]
        rfl
      have hclock : (tx.rollback s.clock).2 = tx.released s.clock :=
        (tx.rollback_clock _).trans (tx.released_eq _).symm
      rw [Phase.clockHoldings, Transaction.clockHoldings_of_idle hidle, Nat.zero_add, hclock]
      exact Transaction.Buffers.released B h
  | @commit place call value s' turn =>
    obtain ⟨tx, stage⟩ := call
    cases turn with
    | commit hstage commits =>
      obtain rfl : stage = _ := hstage
      have hclock := Transaction.Buffers.commit_clock B h commits
      cases place <;> simpa [Phase.clockHoldings, epilogue, unlocking] using hclock
  | readSoftware place reads =>
    obtain ⟨hrole, hactive, -⟩ := Transaction.kept_read reads
    rw [Phase.clockHoldings, Transaction.clockHoldings_congr (by rw [hrole]) hactive]
    exact h
  | writeSoftware place tx a v mask =>
    rw [Phase.clockHoldings, Transaction.clockHoldings_congr (tx.serial_write_iff a v mask) rfl]
    exact h
  | endSoftware place tx result => cases result <;> exact h
  | panicSoftware place tx =>
    have hclock := Transaction.Buffers.released B h
    cases place <;> simpa [Phase.clockHoldings, unwinding, unlocking] using hclock
  | _ => exact h

end Worker.Turn

namespace Chronicle

variable {ι : Type} [DecidableEq ι] {r : Runtime} {c : Chronicle ι}

/-- In every reachable chronicle each attempt holds what is noted of it. -/
theorem buffers_of_reachable (h : Reachable r c) (i : ι) :
    (c.phase i).Buffers c.system.runtime.backend.isSupported (c.notes i).writes := by
  induction h generalizing i with
  | refl => rfl
  | @tail c c' _ hstep ih =>
    cases hstep with
    | act j q spares acts =>
      obtain ⟨T, hnotes, -, hothers⟩ := turn_of_act acts
      by_cases hi : i = j
      · subst hi
        rw [hnotes]
        exact T.buffers (ih i) spares
      · obtain ⟨hworker, hnotes⟩ := hothers i hi
        rw [phase, hworker, hnotes]
        exact (ih i).mono T.isSupported
    | faults f => exact (ih i).mono ((Backend.isSupported_modifyFaults f).trans ·)

end Chronicle

end HybridTM
