import HybridTM.Proofs.Attempt
import HybridTM.Proofs.Blocks
import HybridTM.Proofs.Region

/-!
# All paths do the same

Blocks that run one after the other, each alone on a path of its own, do what they do on the plain
model of memory (`BlockMachine.run_eq_plain`). On each path an attempt stands for the memory that
its block sees: a software transaction by its write log over memory (`Transaction.Alone`), and a
region by its write log and by a read log that holds (`Region.Alone`).
-/

set_option autoImplicit false

namespace HybridTM

/-! ## Software transactions -/

/-- A transaction that is alone on a clock at `n` publications stands for a view of memory. -/
structure Transaction.Alone (n : Nat) (s : Shared) (view : Memory) (tx : Transaction) : Prop where
  /-- It is under way. -/
  active : tx.active = true
  /-- The clock is held just by a serial attempt. -/
  clock : s.clock = .of n (tx.role == .serial)
  /-- Nothing was published since it began. -/
  start : tx.start = stamp n
  /-- Its writes make of memory what its block sees. -/
  sees : tx.writes.writeBack s.memory = view
  /-- While it is read-only its block sees memory. -/
  readOnly : tx.role = .readOnly → view = s.memory

namespace Transaction

variable {n : Nat} {s : Shared} {view : Memory} {tx : Transaction}

theorem Alone.read (A : tx.Alone n s view) (a : Addr) (mask : Mask) :
    ∃ tx', tx.read s a mask = some (.ok (view.read a &&& mask), tx') ∧ tx'.Alone n s view := by
  rcases hl : tx.writes.lookup a mask with ⟨bits, covered⟩
  -- Memory answers for the bits that the buffer does not.
  have merged : merge (s.memory.read a &&& (mask &&& ~~~covered)) bits covered =
      view.read a &&& mask := by
    rw [← A.sees]
    exact WriteLog.merge_lookup hl s.memory
  unfold Transaction.read
  simp only [hl]
  split
  · next hcovered =>
    subst hcovered
    exact ⟨tx, by rw [← A.sees, WriteLog.and_mask_of_lookup hl], A⟩
  split
  · exact ⟨tx, by rw [merged], A⟩
  · next hrole =>
    have hserial : (tx.role == .serial) = false := by
      cases h : tx.role <;> simp_all [Role.isIrrevocable]
    have hcurrent : tx.currentStart s = some (.ok tx.start) := by
      refine if_pos ?_
      rw [A.clock, hserial, A.start, Clock.now_of]
      rfl
    refine ⟨_, by rw [hcurrent, merged], ?_⟩
    exact ⟨A.active, A.clock, A.start, A.sees, A.readOnly⟩

theorem Alone.write (A : tx.Alone n s view) (a : Addr) (v : Word) (mask : Mask) :
    (tx.write a v mask).Alone n s (view.store a v mask) where
  active := A.active
  clock := by
    rw [A.clock]
    rcases role_write tx a v mask with ⟨hw, hr⟩ | ⟨hw, -⟩
    · rw [hw, hr]; rfl
    · rw [hw]
  start := A.start
  sees := by
    rw [← A.sees]
    exact WriteLog.writeBack_insert _ _ _ _ _
  readOnly hrole := by
    rcases role_write tx a v mask with ⟨hw, -⟩ | ⟨hw, hne⟩
    · rw [hw] at hrole; cases hrole
    · exact absurd (hw ▸ hrole) hne

theorem access_follows (n : Nat) (s : Shared) :
    (access s).Follows fun _ view tx => tx.Alone n s view where
  read A := A.read _ _
  write A := ⟨_, rfl, A.write _ _ _⟩

/-- A transaction that is alone commits what its block sees, and leaves the clock free. -/
theorem Alone.commit (A : tx.Alone n s view) :
    ∃ kind tx' k, tx.commit s = some (.ok kind, tx', ⟨view, .of k false⟩) := by
  obtain ⟨m, c⟩ := s
  have hclock : c = .of n (tx.role == .serial) := A.clock
  have hsees : tx.writes.writeBack m = view := A.sees
  unfold Transaction.commit
  cases hrole : tx.role with
  | readOnly =>
    rw [hrole] at hclock
    exact ⟨_, _, n, by rw [A.readOnly hrole, hclock]; rfl⟩
  | readWrite =>
    rw [hrole] at hclock
    have hlock : c.lock? (stamp n) = some ⟨stamp n + 1⟩ :=
      Clock.lock?_eq_some_iff.2 ⟨by rw [hclock]; rfl, rfl⟩
    exact ⟨_, _, n + 1, by simp only [hlock, publish, hsees, A.start, Clock.unlock_stamp]; rfl⟩
  | serial =>
    exact ⟨_, _, n + 1, by simp only [publish, hsees, A.start, Clock.unlock_stamp]; rfl⟩
  | exclusive =>
    rw [hrole] at hclock
    exact ⟨_, _, n, by rw [hsees, hclock]; rfl⟩

/-- A transaction that is alone leaves the clock free when it is rolled back. -/
theorem Alone.rollback (A : tx.Alone n s view) :
    ∃ tx' k, tx.rollback s.clock = (tx', .of k false) := by
  unfold Transaction.rollback released
  rw [if_pos A.active]
  split
  · exact ⟨_, n + 1, by rw [A.start, Clock.unlock_stamp]⟩
  · next hserial =>
    have hrole : (tx.role == .serial) = false := by
      simpa [A.active] using hserial
    exact ⟨_, n, by rw [A.clock, hrole]⟩

theorem begin_alone (tx : Transaction) (hc : s.clock = .of n false) :
    (tx.begin s.clock).Alone n s s.memory where
  active := rfl
  clock := hc
  start := by
    show s.clock.snapshot = stamp n
    rw [hc, Clock.snapshot_of]
  sees := WriteLog.writeBack_empty _
  readOnly _ := rfl

theorem beginExclusive_alone (tx : Transaction) (hc : s.clock = .of n false) :
    (tx.beginExclusive s.clock).Alone n s s.memory where
  active := rfl
  clock := hc
  start := by
    show s.clock.snapshot = stamp n
    rw [hc, Clock.snapshot_of]
  sees := WriteLog.writeBack_empty _
  readOnly _ := rfl

/-- A free clock is taken at once. -/
theorem beginSerial_alone (tx : Transaction) (m : Memory) :
    ∃ tx', tx.beginSerial (.of n false) = some (tx', .of n true) ∧
      tx'.Alone n ⟨m, .of n true⟩ m := by
  have hlock : (Clock.of n false).lock? (stamp n) = some (.of n true) :=
    Clock.lock?_eq_some_iff.2 ⟨rfl, rfl⟩
  refine ⟨{ tx.reset .serial with start := stamp n, lockAttempts := tx.lockAttempts + 1 }, ?_, ?_⟩
  · simp [beginSerial, hlock]
  · exact ⟨rfl, rfl, rfl, WriteLog.writeBack_empty _, fun _ => rfl⟩

end Transaction

/-! ## Hardware regions -/

namespace WriteLog.StandsFor

variable {log : WriteLog} {M : PendingWrites}

/-- The log finds the bits that are pending. -/
theorem lookup (S : log.StandsFor M) (a : Addr) (mask : Mask) :
    (log.lookup a mask).2 = M.bits a &&& mask := by
  unfold WriteLog.lookup PendingWrites.bits
  rw [S.find? a, PendingWrites.find?]
  cases M.pending a with
  | none => simp
  | some old => rfl

theorem size (S : log.StandsFor M) : log.size = M.order.length := by
  rw [← S.order, List.length_map, Array.length_toList]
  rfl

theorem length_order_insert (S : log.StandsFor M) (a : Addr) (v : Word) (mask : Mask) :
    (M.insert a v mask).order.length = log.size + if a ∈ M.order then 0 else 1 := by
  rw [S.size, PendingWrites.insert]
  split
  · rfl
  · exact List.length_append

theorem isNone_find? (S : log.StandsFor M) {a : Addr} :
    (log.find? a).isNone = true ↔ a ∉ M.order := by
  rw [S.mem_order_iff, Option.isNone_iff_eq_none, Option.eq_none_iff_forall_ne_some, not_exists]

end WriteLog.StandsFor

/-- A region that runs alone on an emulator stands for a view of memory, and there is room for what
is left of its block. -/
structure Region.Alone (e : Emulator) (m : Memory) (b : Block) (view : Memory) (r : Region) :
    Prop where
  /-- It can commit. -/
  sound : r.doomed = none
  /-- Nothing was published since it began. -/
  start : r.start = e.version
  /-- Its reads are current. -/
  current : r.reads.isConsistent m = true
  /-- Its writes make of memory what its block sees. -/
  sees : r.writes.writeBack m = view
  /-- There is room for what is left. -/
  room : ∃ M, r.writes.StandsFor M ∧
    r.reads.size + r.writes.size + b.footprint view M ≤ e.capacity

namespace Region

variable {e : Emulator} {m view : Memory} {r : Region}

theorem Alone.read {a : Addr} {mask : Mask} {next : Except TxError Word → Block}
    (A : r.Alone e m (.read a mask next) view) :
    ∃ r', r.read e m a mask = (.ok (view.read a &&& mask), r') ∧
      r'.Alone e m (next (.ok (view.read a &&& mask))) view := by
  obtain ⟨M, S, hroom⟩ := A.room
  rw [Block.footprint] at hroom
  have hlookup := S.lookup a mask
  rcases hl : r.writes.lookup a mask with ⟨bits, covered⟩
  rw [hl] at hlookup
  have merged : merge (m.read a &&& (mask &&& ~~~covered)) bits covered = view.read a &&& mask := by
    rw [← A.sees]
    exact WriteLog.merge_lookup hl m
  unfold Region.read
  simp only [A.sound, hl]
  split
  · next hcovered =>
    subst hcovered
    refine ⟨r, by rw [← A.sees, WriteLog.and_mask_of_lookup hl], ?_⟩
    exact ⟨A.sound, A.start, A.current, A.sees, M, S, by omega⟩
  · next hcovered =>
    -- The read is logged, and room was kept for it.
    rw [if_neg (fun h => hcovered (hlookup.trans h))] at hroom
    have hfull : r.isFull e = false := by
      rw [isFull, decide_eq_false_iff_not]
      omega
    have hrevalidate : r.revalidate? e m = some r := if_pos A.start.symm
    simp only [hfull, hrevalidate, Bool.false_eq_true, if_false, merged]
    refine ⟨_, rfl, A.sound, A.start, ?_, A.sees, M, S, ?_⟩
    · rw [ReadLog.isConsistent_record, A.current]
      simp [ReadEntry.isCurrent]
    · rw [ReadLog.size_record]
      show r.reads.size + 1 + r.writes.size + _ ≤ _
      omega

theorem Alone.write {a : Addr} {v : Word} {mask : Mask} {next : Except TxError Unit → Block}
    (A : r.Alone e m (.write a v mask next) view) :
    ∃ r', r.write e a v mask = (.ok (), r') ∧
      r'.Alone e m (next (.ok ())) (view.store a v mask) := by
  obtain ⟨M, S, hroom⟩ := A.room
  rw [Block.footprint] at hroom
  have hfits : ((r.writes.find? a).isNone && r.isFull e) = false := by
    rw [Bool.and_eq_false_iff, ← Bool.not_eq_true, S.isNone_find?, isFull, decide_eq_false_iff_not]
    by_cases ha : a ∈ M.order
    · exact Or.inl fun h => h ha
    · rw [if_neg ha] at hroom
      exact Or.inr (by omega)
  unfold Region.write
  simp only [A.sound, hfits, Bool.false_eq_true, if_false]
  refine ⟨_, rfl, rfl, A.start, A.current, ?_, _, S.insert a v mask, ?_⟩
  · rw [← A.sees]
    exact WriteLog.writeBack_insert _ _ _ _ _
  · rw [(S.insert a v mask).size, S.length_order_insert]
    show r.reads.size + _ + _ ≤ _
    omega

theorem access_follows (e : Emulator) (m : Memory) :
    (access (.emulated e) m).Follows (Region.Alone e m) where
  read A := by
    obtain ⟨r', hread, A'⟩ := A.read
    exact ⟨r', by simp [access, Backend.read, hread, Except.mapError], A'⟩
  write A := by
    obtain ⟨r', hwrite, A'⟩ := A.write
    exact ⟨r', by simp [access, Backend.write, hwrite, Except.mapError], A'⟩

/-- A region that begins on an emulator without faults is alone if there is room for its block. -/
theorem enter_alone {b : Block} (hquiet : e.faults.armed = false)
    (hroom : b.footprint m .empty ≤ e.capacity) :
    ∃ e' r, Execution.settle 1 .starting (.emulated e) m = (.running r, .emulated e', m) ∧
      e'.capacity = e.capacity ∧ e'.faults.armed = false ∧ r.Alone e' m b m := by
  have hforced : e.faults.takeForced = (none, e.faults) := by
    rw [Faults.takeForced, hquiet]
    rfl
  have henter : (Backend.emulated e).enter = (.ok ⟨e.version, .empty, .empty, none⟩,
      .emulated { e with started := e.started + 1 }) := by
    simp only [Backend.enter, Emulator.enter, hforced]
  refine ⟨{ e with started := e.started + 1 }, ⟨e.version, .empty, .empty, none⟩, ?_, rfl, hquiet,
    ⟨rfl, rfl, ReadLog.isConsistent_empty m, WriteLog.writeBack_empty m, .empty, .empty, ?_⟩⟩
  · simp only [Execution.settle, Execution.advance, henter]
  · rwa [show ReadLog.empty.size + WriteLog.empty.size = 0 from rfl, Nat.zero_add]

/-- A region that is alone commits what its block sees. -/
theorem Alone.commit {b : Block} (A : r.Alone e m b view) (hquiet : e.faults.armed = false)
    (value : Word) : ∃ e', (Execution.returned r value).settle 3 (.emulated e) m =
      (.done (.ok value), .emulated e', view) ∧
      e'.capacity = e.capacity ∧ e'.faults.armed = false := by
  have hhook : (Backend.emulated e).dueHook = none := by
    rw [Backend.dueHook, Faults.dueHook, hquiet]
    rfl
  have hcommit : ∃ e', (Backend.emulated e).commit r m = .ok (.emulated e', view) ∧
      e'.capacity = e.capacity ∧ e'.faults.armed = false := by
    rw [← A.sees, Backend.commit, Emulator.commit, if_pos A.current]
    -- Only a region that wrote is published.
    cases hempty : r.writes.isEmpty with
    | true =>
      rw [WriteLog.writeBack_of_isEmpty hempty]
      exact ⟨_, rfl, rfl, hquiet⟩
    | false => exact ⟨_, rfl, rfl, hquiet⟩
  obtain ⟨e', hcommit, hcapacity, hquiet'⟩ := hcommit
  refine ⟨e', ?_, hcapacity, hquiet'⟩
  simp only [Execution.settle, Execution.advance, A.sound, hhook, hcommit]

end Region

/-! ## Blocks on a machine -/

namespace BlockMachine

/-- A machine with nothing under way: the clock is free, and no faults are injected. -/
structure Ready (capacity : Nat) (m : Memory) (s : BlockMachine) : Prop where
  /-- Its memory. -/
  memory : s.shared.memory = m
  /-- Nobody holds the clock. -/
  clock : ∃ n, s.shared.clock = .of n false
  /-- Regions are emulated, with room for footprints up to the capacity. -/
  backend : ∃ e, s.backend = .emulated e ∧ e.capacity = capacity ∧ e.faults.armed = false

/-- The footprint of a block that runs as a region is within the capacity. -/
def Fits (capacity : Nat) (m : Memory) (t : Task) : Prop :=
  t.path = .hardware → t.block.footprint m .empty ≤ capacity

/-- Each block that runs as a region fits, on the memory that the blocks before it leave. -/
def AllFit (capacity : Nat) : Memory → List Task → Prop
  | _, [] => True
  | m, t :: ts => Fits capacity m t ∧ AllFit capacity (t.block.report m).memory ts

instance Fits.decidable (capacity : Nat) (m : Memory) (t : Task) : Decidable (Fits capacity m t) :=
  inferInstanceAs (Decidable (_ → _))

instance AllFit.decidable (capacity : Nat) : (m : Memory) → (ts : List Task) →
    Decidable (AllFit capacity m ts)
  | _, [] => .isTrue trivial
  | m, t :: ts =>
      have := AllFit.decidable capacity (t.block.report m).memory ts
      inferInstanceAs (Decidable (_ ∧ _))

variable {capacity : Nat} {m : Memory} {s : BlockMachine}

theorem Ready.put (R : s.Ready capacity m) (i : Nat) (tx : Transaction) (m' : Memory) (n : Nat) :
    (s.put i tx ⟨m', .of n false⟩).Ready capacity m' :=
  ⟨rfl, ⟨n, rfl⟩, R.backend⟩

/-- A block in an attempt that is alone does what it does on the plain model. -/
theorem Ready.runAttempt (R : s.Ready capacity m) (b : Block) (i : Nat) {n : Nat}
    {tx : Transaction} {clock : Clock} (A : tx.Alone n ⟨m, clock⟩ m) :
    ∃ s', s.runAttempt b i tx clock = some (b.report m, s') ∧
      s'.Ready capacity (b.report m).memory := by
  obtain rfl := R.memory
  obtain ⟨tx₁, -, hdrive, A₁⟩ :=
    Block.drive_eq_plain (Transaction.access_follows n ⟨s.shared.memory, clock⟩) (b := b) A
  unfold BlockMachine.runAttempt Block.report
  rcases hplain : b.plain s.shared.memory with ⟨events, view, wish⟩
  rw [hplain] at hdrive A₁
  simp only [hdrive, Option.bind_eq_bind, Option.bind_some]
  cases wish with
  | error err =>
    obtain ⟨tx₂, k, hrollback⟩ := A₁.rollback
    simp only [hrollback]
    exact ⟨_, rfl, R.put i tx₂ _ k⟩
  | ok value =>
    obtain ⟨kind, tx₂, k, hcommit⟩ := A₁.commit
    simp only [hcommit, Option.bind_some]
    exact ⟨_, rfl, R.put i tx₂ view k⟩

/-- A block that fits in a region does there what it does on the plain model. -/
theorem Ready.runRegion (R : s.Ready capacity m) (b : Block)
    (hroom : b.footprint m .empty ≤ capacity) :
    ∃ s', s.runRegion b = some (b.report m, s') ∧ s'.Ready capacity (b.report m).memory := by
  obtain ⟨e, hbackend, hcapacity, hquiet⟩ := R.backend
  obtain ⟨e₁, r, henter, hcapacity₁, hquiet₁, A⟩ :=
    Region.enter_alone (m := m) (b := b) hquiet (hcapacity.symm ▸ hroom)
  obtain ⟨r₁, rest, hdrive, A₁⟩ := Block.drive_eq_plain (Region.access_follows e₁ m) A
  unfold BlockMachine.runRegion Block.report
  rcases hplain : b.plain m with ⟨events, view, wish⟩
  rw [hplain] at hdrive A₁
  rw [hbackend, R.memory, henter]
  simp only [hdrive, Option.bind_eq_bind, Option.bind_some]
  cases wish with
  | error err =>
    exact ⟨_, rfl, rfl, R.clock, e₁, rfl, hcapacity₁.trans hcapacity, hquiet₁⟩
  | ok value =>
    obtain ⟨e₂, hcommit, hcapacity₂, hquiet₂⟩ := A₁.commit hquiet₁ value
    simp only [Execution.endBody, hcommit]
    exact ⟨_, rfl, rfl, R.clock, e₂, rfl, hcapacity₂.trans (hcapacity₁.trans hcapacity), hquiet₂⟩

/-- On each path a block does what it does on the plain model. -/
theorem Ready.runTask (R : s.Ready capacity m) (t : Task) (hfits : Fits capacity m t) :
    ∃ s', s.runTask t = some (t.block.report m, s') ∧
      s'.Ready capacity (t.block.report m).memory := by
  obtain ⟨n, hclock⟩ := R.clock
  have hshared : s.shared = ⟨m, .of n false⟩ := by rw [← R.memory, ← hclock]
  unfold BlockMachine.runTask
  rw [hshared]
  cases hpath : t.path with
  | hardware => exact R.runRegion t.block (hfits hpath)
  | software => exact R.runAttempt t.block t.tx (Transaction.begin_alone _ rfl)
  | serial =>
    obtain ⟨tx, hbegin, A⟩ := Transaction.beginSerial_alone (n := n) (s.tx t.tx) m
    simp only [hbegin, Option.bind_eq_bind, Option.bind_some]
    exact R.runAttempt t.block t.tx A
  | glock => exact R.runAttempt t.block t.tx (Transaction.beginExclusive_alone _ rfl)

theorem Ready.run (R : s.Ready capacity m) (ts : List Task) (hfit : AllFit capacity m ts) :
    ∃ s', s.run ts = some (Block.reports (ts.map (·.block)) m, s') := by
  -- Each block hands the memory it leaves to the rest.
  induction ts generalizing s m with
  | nil => exact ⟨s, rfl⟩
  | cons t ts ih =>
    obtain ⟨s₁, hrun, R₁⟩ := R.runTask t hfit.1
    obtain ⟨s₂, hruns⟩ := ih R₁ hfit.2
    refine ⟨s₂, ?_⟩
    simp only [BlockMachine.run, hrun, hruns, Option.bind_eq_bind, Option.bind_some]
    rfl

theorem new_ready (capacity : Nat) (m : Memory) : (new capacity m).Ready (max capacity 1) m :=
  ⟨rfl, ⟨0, rfl⟩, _, rfl, rfl, rfl⟩

/-- Blocks that run one after the other, each alone on a path of its own, do what they do on the
plain model: every access has the result that it has there, no access and no commit fails, and each
block leaves the memory that it leaves there. -/
theorem run_eq_plain (capacity : Nat) (m : Memory) (ts : List Task)
    (hfit : AllFit (max capacity 1) m ts) :
    ((new capacity m).run ts).map (·.1) = some (Block.reports (ts.map (·.block)) m) := by
  obtain ⟨s, hrun⟩ := (new_ready capacity m).run ts hfit
  rw [hrun, Option.map_some]

/-- A block that writes the first word in two pieces that overlap and reads over both of them. -/
def piecewise (next : Word → Block) : Block :=
  .write 0 0x12 0xFF fun _ => .write 0 0x345 0xFF0 fun _ => .read 0 0xFFFF fun result =>
    match result with
    | .ok v => next v
    | .error err => .giveUp err

/-- Blocks on all four paths, some of which give up. -/
def tour : List Task :=
  [⟨piecewise .commit, .hardware, 0⟩,
    ⟨piecewise fun _ => .giveUp (.hardware (.explicit 7)), .hardware, 0⟩,
    ⟨.write 0 9 fullMask fun _ => piecewise .commit, .software, 0⟩,
    ⟨piecewise fun _ => .giveUp .validationFailure, .serial, 0⟩,
    ⟨piecewise fun v => .write 8 v fullMask fun _ => .commit v, .serial, 1⟩,
    ⟨.read 8 0xF fun _ => piecewise .commit, .glock, 0⟩]

/-- Two words of room are enough for the regions. -/
theorem run_eq_plain_of_four_paths :
    AllFit (max 2 1) (.ofWords [0xABCDEF]) tour ∧
      ((new 2 (.ofWords [0xABCDEF])).run tour).map (·.1) =
        some (Block.reports (tour.map (·.block)) (.ofWords [0xABCDEF])) := by
  have hfit : AllFit (max 2 1) (.ofWords [0xABCDEF]) tour := by decide +kernel
  exact ⟨hfit, run_eq_plain 2 _ tour hfit⟩

end BlockMachine

end HybridTM
