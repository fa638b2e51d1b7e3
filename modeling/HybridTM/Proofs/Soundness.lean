import HybridTM.Proofs.Attempt
import HybridTM.Proofs.Protocol
import HybridTM.Proofs.Region
import HybridTM.Proofs.WorkerTurns

/-!
# What holds of a worker

Where a worker stands says what stake it has in the mode word (`Worker.stake`) and what holds of its
region, its transaction and its errand (`Phase.Sound`). Every turn of the worker keeps this
(`Worker.Turn.sound`), and it leaves mode word and stake alone, or carries out an errand, or finds
that an errand does not apply (`Worker.Turn.mode`).
-/

set_option autoImplicit false

namespace HybridTM

/-! ## Stakes -/

/-- The stake that entitles a software call to run. -/
def Place.stake : Place → Stake
  | .epoch => .epoch
  | .joined => .joined
  | .lock => .lock

/-- The stake of a worker on an errand, which changes when the word is swapped. -/
def SwapStage.stake (errand : Errand) : SwapStage → Stake
  | .load | .swap _ _ => errand.before
  | .announce _ _ => errand.after

/-- The stake of a worker in a phase, with or without an epoch of its own. -/
def Phase.stake (deferred : Bool) : Phase → Stake
  | .switching errand stage => stage.stake errand
  | .software place _ => place.stake
  | _ => if deferred then .epoch else .none

/-- The stake of a worker. -/
def Worker.stake (w : Worker) : Stake := w.phase.stake w.deferred

/-! ## What holds in each phase -/

/-- What a region read first. -/
def Region.firstRead? (r : Region) : Option ReadEntry := r.reads.entries[0]?

/-- A region read the whole mode word before anything else, in hardware mode, and does not write
it. -/
structure Region.Checked (r : Region) : Prop where
  /-- The mode word was read first. -/
  first : ∃ word, r.firstRead? = some ⟨Runtime.modeAddr, word, fullMask⟩ ∧
    (ModeSnapshot.decode word).mode = .hw
  /-- It is not written. -/
  spares : r.writes.find? Runtime.modeAddr = none

/-- An execution past its beginning has a region that read hardware mode, and that is not doomed
once it goes to its commit. -/
def Execution.Checked : Execution → Prop
  | .starting | .done _ => True
  | .running r | .returned r _ => r.Checked
  | .hook _ r _ | .committing r _ => r.Checked ∧ r.doomed = none

/-- An errand that is about to swap the word applies to what it saw. -/
def SwapStage.Sound (errand : Errand) : SwapStage → Prop
  | .swap seen next => seen.InRange ∧ errand.change? seen = some next
  | .load | .announce _ _ => True

/-- A software call does not write the mode word, and it runs alone just when it has the global
lock. -/
structure Call.Entitled (place : Place) (call : Call) : Prop where
  /-- The mode word is not written. -/
  spares : call.tx.writes.find? Runtime.modeAddr = none
  /-- Under the lock every attempt is exclusive. -/
  alone : place = .lock → call.stage ≠ .starting → call.tx.role = .exclusive
  /-- Elsewhere none is. -/
  shared : place ≠ .lock → call.tx.role ≠ .exclusive

/-- What holds of a worker in a phase, with or without an epoch of its own. -/
def Phase.Sound (deferred : Bool) : Phase → Prop
  | .resting _ | .dispatch _ => True
  | .checking _ r =>
      deferred = false ∧ r.reads = .empty ∧ r.writes = .empty ∧ r.doomed = none
  | .hardware _ x => deferred = false ∧ x.Checked
  | .switching errand stage => deferred = false ∧ stage.Sound errand
  | .software place call => (deferred = true ↔ place = .epoch) ∧ call.Entitled place
  | .measuring _ => deferred = true

/-! ## Regions -/

namespace Region.Checked

variable {b b' : Backend} {r r' : Region} {m m' : Memory}

/-- A region that reads hardware mode before anything else is checked. -/
theorem of_check (hreads : r.reads = .empty) (hwrites : r.writes = .empty) {word : Word}
    (h : b.read r m Runtime.modeAddr fullMask = (.ok word, r'))
    (hmode : (ModeSnapshot.decode word).mode = .hw) : r'.Checked := by
  obtain ⟨-, hr, hw⟩ := Backend.read_of_writes_eq_empty hwrites h
  refine ⟨⟨word, ?_, hmode⟩, by rw [hw]; exact WriteLog.find?_empty _⟩
  rw [firstRead?, hr, hreads]
  rfl

/-- Further entries of the log come after the first. -/
theorem firstRead?_of_reads {e : ReadEntry} (h : r.firstRead? = some e)
    (hr : r'.reads = r.reads ∨ ∃ a v mask, r'.reads = r.reads.record a v mask) :
    r'.firstRead? = some e := by
  rcases hr with hr | ⟨a, v, mask, hr⟩
  · rw [firstRead?, hr]
    exact h
  · obtain ⟨hsize, -⟩ := Array.getElem?_eq_some_iff.1 h
    rw [firstRead?, hr, ReadLog.record, Array.getElem?_push_lt hsize,
      ← Array.getElem?_eq_getElem hsize]
    exact h

theorem read (C : r.Checked) {a : Addr} {mask : Mask} {result : Except HardwareAbort Word}
    (h : b.read r m a mask = (result, r')) : r'.Checked := by
  obtain ⟨⟨word, hfirst, hmode⟩, hspares⟩ := C
  rcases Backend.read_cases h with ⟨abort, -, hr, hw, -⟩ |
    ⟨-, -, hw, bits, covered, -, ⟨-, -, hr⟩ | ⟨-, -, hr⟩⟩
  · exact ⟨⟨word, firstRead?_of_reads hfirst (Or.inl hr), hmode⟩, by rw [hw]; exact hspares⟩
  · exact ⟨⟨word, firstRead?_of_reads hfirst (Or.inl hr), hmode⟩, by rw [hw]; exact hspares⟩
  · exact ⟨⟨word, firstRead?_of_reads hfirst (Or.inr ⟨_, _, _, hr⟩), hmode⟩,
      by rw [hw]; exact hspares⟩

theorem write (C : r.Checked) {a : Addr} (ha : a ≠ Runtime.modeAddr) {v : Word} {mask : Mask}
    {result : Except HardwareAbort Unit} (h : b.write r a v mask = (result, r')) :
    r'.Checked := by
  obtain ⟨⟨word, hfirst, hmode⟩, hspares⟩ := C
  rcases Backend.write_cases h with ⟨abort, -, hr, hw, -⟩ | ⟨-, -, rfl⟩
  · exact ⟨⟨word, firstRead?_of_reads hfirst (Or.inl hr), hmode⟩, by rw [hw]; exact hspares⟩
  · refine ⟨⟨word, hfirst, hmode⟩, ?_⟩
    rw [WriteLog.find?_insert, if_neg ha.symm]
    exact hspares

theorem doom (C : r.Checked) (abort : HardwareAbort) : (r.doom abort).Checked :=
  ⟨C.first, C.spares⟩

/-- A region that commits finds the mode word as it read it, and leaves it so. -/
theorem commit (C : r.Checked) (h : b.commit r m = .ok (b', m')) :
    (∃ word, r.firstRead? = some ⟨Runtime.modeAddr, word, fullMask⟩ ∧
        m.read Runtime.modeAddr = word ∧ (ModeSnapshot.decode word).mode = .hw) ∧
      m'.read Runtime.modeAddr = m.read Runtime.modeAddr := by
  obtain ⟨⟨word, hfirst, hmode⟩, hspares⟩ := C
  obtain ⟨hconsistent, rfl, -, -⟩ := Backend.commit_ok h
  have hcurrent := ReadLog.isCurrent_of_mem hconsistent (Array.mem_of_getElem? hfirst)
  rw [ReadEntry.isCurrent_fullMask_iff] at hcurrent
  exact ⟨⟨word, hfirst, hcurrent, hmode⟩, WriteLog.read_writeBack_of_find?_eq_none hspares m⟩

end Region.Checked

namespace Execution.Checked

variable {b b' : Backend} {x x' : Execution} {m m' : Memory}

/-- A turn of an execution keeps its region checked and leaves the mode word alone. -/
theorem turn (C : x.Checked) (T : Execution.Turn b m x x' b' m') (past : ∀ r, x' ≠ .running r) :
    x'.Checked ∧ m'.read Runtime.modeAddr = m.read Runtime.modeAddr := by
  cases T with
  | refused enters => exact ⟨trivial, rfl⟩
  | entered enters => exact absurd rfl (past _)
  | doomed value doomed => exact ⟨trivial, rfl⟩
  | hook value name sound => exact ⟨⟨C, sound⟩, rfl⟩
  | ready value sound => exact ⟨⟨C, sound⟩, rfl⟩
  | resumed name r value => exact ⟨C, rfl⟩
  | commit value commits => exact ⟨trivial, (C.1.commit commits).2⟩
  | conflict value fails => exact ⟨trivial, rfl⟩

theorem endBody {r : Region} (C : r.Checked) (result : Except TxError Word) :
    (Execution.endBody r result).Checked := by
  cases result with
  | ok value => exact C
  | error err => trivial

end Execution.Checked

/-! ## Software calls -/

/-- A commit leaves alone a word that the transaction did not write. -/
theorem Transaction.commit_spares {tx tx' : Transaction} {s s' : Shared}
    {result : Except TxError CommitKind} {a : Addr} (ha : tx.writes.find? a = none)
    (h : tx.commit s = some (result, tx', s')) :
    s'.memory.read a = s.memory.read a ∧
      (∀ err, result = .error err → tx'.writes = tx.writes ∧ tx'.role = tx.role) := by
  have hback : (tx.writes.writeBack s.memory).read a = s.memory.read a :=
    WriteLog.read_writeBack_of_find?_eq_none ha s.memory
  rcases commit_cases h with ⟨-, rfl, -, rfl⟩ | ⟨-, now, locked, -, -, rfl, rfl, -⟩ |
    ⟨-, -, rfl, rfl, n, rfl⟩ | ⟨-, rfl, rfl, -⟩ | ⟨-, rfl, rfl, -⟩
  · exact ⟨rfl, fun err herr => by cases herr⟩
  · exact ⟨hback, fun err herr => by cases herr⟩
  · exact ⟨rfl, fun err _ => ⟨rfl, rfl⟩⟩
  · exact ⟨hback, fun err herr => by cases herr⟩
  · exact ⟨hback, fun err herr => by cases herr⟩

namespace Call.Entitled

variable {place : Place} {call : Call} {s s' : Shared} {progress : CallProgress}

theorem new (place : Place) (clock : Clock) : (Call.new clock).Entitled place where
  spares := WriteLog.find?_empty _
  alone _ hstage := absurd rfl hstage
  shared _ hrole := by cases hrole

/-- A turn of a software call leaves the mode word alone. -/
theorem word (E : call.Entitled place) (T : Call.Turn call (place = .lock) s progress s') :
    s'.memory.read Runtime.modeAddr = s.memory.read Runtime.modeAddr := by
  cases T with
  | commit stage commits => exact (Transaction.commit_spares E.spares commits).1
  | failed stage fails => exact (Transaction.commit_spares E.spares fails).1
  | exclusive stage only => rfl
  | optimistic stage others => rfl
  | serial stage others begins => rfl
  | rollback stage => rfl

/-- A call that goes on stays entitled. -/
theorem turn (E : call.Entitled place) {call' : Call}
    (T : Call.Turn call (place = .lock) s (.going call') s') : call'.Entitled place := by
  cases T with
  | exclusive stage only =>
    have hplace : place = .lock := of_decide_eq_true only
    exact ⟨WriteLog.find?_empty _, fun _ _ => rfl, fun hne => absurd hplace hne⟩
  | optimistic stage others =>
    have hplace : place ≠ .lock := of_decide_eq_false others
    exact ⟨WriteLog.find?_empty _, fun heq => absurd heq hplace, fun _ hrole => by cases hrole⟩
  | serial stage others begins =>
    have hplace : place ≠ .lock := of_decide_eq_false others
    obtain ⟨now, -, heq⟩ := Option.bind_eq_some_iff.1 begins
    obtain ⟨locked, -, heq⟩ := Option.bind_eq_some_iff.1 heq
    obtain ⟨rfl, -⟩ := Prod.mk.inj (Option.some.inj heq)
    exact ⟨WriteLog.find?_empty _, fun heq => absurd heq hplace, fun _ hrole => by cases hrole⟩
  | failed stage fails =>
    obtain ⟨hwrites, hrole⟩ := (Transaction.commit_spares E.spares fails).2 _ rfl
    refine ⟨by rw [hwrites]; exact E.spares, ?_, ?_⟩
    · intro hplace _
      rw [hrole]
      exact E.alone hplace (by rw [stage]; simp)
    · intro hplace
      rw [hrole]
      exact E.shared hplace
  | rollback stage =>
    -- An attempt that is not active stays as it is.
    have hrolled : rolledBack call.tx s.clock = { call.tx.finish with lockAttempts := 0 } ∨
        rolledBack call.tx s.clock = { call.tx with lockAttempts := 0 } := by
      unfold rolledBack Transaction.rollback
      split
      · exact Or.inl rfl
      · exact Or.inr rfl
    rcases hrolled with hrolled | hrolled <;> rw [hrolled]
    · exact ⟨WriteLog.find?_empty _, fun _ hstage => absurd rfl hstage,
        fun _ hrole => by cases hrole⟩
    · exact ⟨E.spares, fun _ hstage => absurd rfl hstage, E.shared⟩

theorem read (E : call.Entitled place) {tx : Transaction} {a : Addr} {mask : Mask}
    {result : Except TxError Word} (running : call.stage = .running)
    (h : call.tx.read s a mask = some (result, tx)) :
    (Call.mk tx .running).Entitled place := by
  obtain ⟨hrole, -, hwrites⟩ := Transaction.kept_read h
  refine ⟨by rw [hwrites]; exact E.spares, ?_, ?_⟩
  · intro hplace _
    rw [hrole]
    exact E.alone hplace (by rw [running]; simp)
  · intro hplace
    rw [hrole]
    exact E.shared hplace

theorem write (E : call.Entitled place) {a : Addr} (ha : a ≠ Runtime.modeAddr)
    (running : call.stage = .running) (v : Word) (mask : Mask) :
    (Call.mk (call.tx.write a v mask) .running).Entitled place := by
  have hspares : (call.tx.write a v mask).writes.find? Runtime.modeAddr = none := by
    rw [Transaction.write, WriteLog.find?_insert, if_neg ha.symm]
    exact E.spares
  rcases Transaction.role_write call.tx a v mask with ⟨hrole, hreadOnly⟩ | ⟨hrole, -⟩
  · refine ⟨hspares, ?_, fun _ => by rw [hrole]; decide⟩
    intro hplace _
    have := E.alone hplace (by rw [running]; simp)
    rw [hreadOnly] at this
    cases this
  · refine ⟨hspares, ?_, ?_⟩
    · intro hplace _
      rw [hrole]
      exact E.alone hplace (by rw [running]; simp)
    · intro hplace
      rw [hrole]
      exact E.shared hplace

end Call.Entitled

/-! ## Turns -/

namespace Worker.Turn

variable {b b' : Backend} {s s' : Shared} {d d' : Bool} {p p' : Phase} {q : Request}
  {reply : Reply}

theorem sound_destination {errand : Errand} {changed : Bool} {clock : Clock} :
    (destination clock changed errand).Sound (beginsEpoch errand) := by
  cases errand <;> cases changed <;>
    first
      | trivial
      | exact ⟨rfl, trivial⟩
      | exact ⟨by simp [beginsEpoch], .new _ _⟩

/-- Every turn keeps what holds of a worker. -/
theorem sound (T : Turn b s d p q reply d' p' s' b') (hp : p.Sound d) (hq : q.SparesMode) :
    p'.Sound d' := by
  cases T with
  | call alive => trivial
  | retire outside => trivial
  | retireEpoch inside => exact ⟨rfl, trivial⟩
  | flush => exact hp
  | toEpoch failures inside => exact ⟨by simp [inside], .new _ _⟩
  | toJoin failures outside change => exact ⟨outside, ModeSnapshot.inRange_decode _, change⟩
  | toLock failures outside => exact ⟨outside, trivial⟩
  | toHardware failures outside => exact ⟨outside, trivial⟩
  | enter failures enters =>
    obtain ⟨hreads, hwrites, hdoomed, -⟩ := Backend.enter_ok enters
    exact ⟨hp.1, hreads, hwrites, hdoomed⟩
  | check failures reads hardware =>
    obtain ⟨hd, hreads, hwrites, -⟩ := hp
    exact ⟨hd, .of_check hreads hwrites reads hardware⟩
  | refuse failures r abort => exact ⟨hp.1, trivial⟩
  | execution failures turn past => exact ⟨hp.1, (hp.2.turn turn past).1⟩
  | settle failures value ticks => trivial
  | retry failures failures' abort ticks => trivial
  | toSoftware failures failures' abort ticks => exact ⟨hp.1, trivial⟩
  | load change => exact ⟨hp.1, ModeSnapshot.inRange_decode _, change⟩
  | inapplicable change => rw [hp.1]; exact sound_destination
  | swap found mode => rw [hp.1]; exact sound_destination
  | swapMode found mode => exact ⟨hp.1, trivial⟩
  | reload lost persistent => exact ⟨hp.1, trivial⟩
  | giveUp lost persistent => rw [hp.1]; exact sound_destination
  | announce seen next => rw [hp.1]; exact sound_destination
  | software place turn => exact ⟨hp.1, hp.2.turn turn⟩
  | commit place turn =>
    have hd : d = true ↔ place = .epoch := hp.1
    cases place with
    | epoch => exact hd.2 rfl
    | joined => exact ⟨by simpa using hd, trivial⟩
    | lock =>
      exact ⟨by simpa using hd, ModeSnapshot.inRange_locked,
        Errand.unlock_change?_eq_some_iff.2 ⟨rfl, rfl⟩⟩
  | stay value ticks => trivial
  | goBack value ticks => exact ⟨rfl, trivial⟩
  | readRegion failures reads => exact ⟨hp.1, hp.2.read reads⟩
  | readSoftware place reads => exact ⟨hp.1, hp.2.read rfl reads⟩
  | writeRegion failures writes => exact ⟨hp.1, hp.2.write hq writes⟩
  | writeSoftware place tx a v mask => exact ⟨hp.1, hp.2.write hq rfl v mask⟩
  | abort failures r code => exact ⟨hp.1, hp.2.doom _⟩
  | endRegion failures r result => exact ⟨hp.1, .endBody hp.2 result⟩
  | endSoftware place tx result =>
    refine ⟨hp.1, hp.2.spares, ?_, hp.2.shared⟩
    intro hplace _
    exact hp.2.alone hplace (by simp)
  | panicRegion failures r => trivial
  | panicSoftware place tx =>
    have hd : d = true ↔ place = .epoch := hp.1
    cases place with
    | epoch => trivial
    | joined => exact ⟨by simpa using hd, trivial⟩
    | lock =>
      exact ⟨by simpa using hd, ModeSnapshot.inRange_locked,
        Errand.unlock_change?_eq_some_iff.2 ⟨rfl, rfl⟩⟩

/-- What a turn does to the mode word and to the stake of its worker. -/
inductive ModeEffect (s : Shared) (before : Stake) : Shared → Stake → Prop
  /-- Nothing. -/
  | kept {s' : Shared} (word : s'.memory.read Runtime.modeAddr = s.memory.read Runtime.modeAddr) :
      ModeEffect s before s' before
  /-- It carries out an errand. -/
  | changed (errand : Errand) {next : ModeSnapshot} (stake : before = errand.before)
      (change : errand.change? s.mode = some next) :
      ModeEffect s before (s.setMode next) errand.after
  /-- It gives up an errand that would have given back what the worker has, or turned the runtime
  to software. -/
  | refused (errand : Errand) (stake : before = errand.before) (some : before ≠ .none)
      (change : errand.change? s.mode = none) : ModeEffect s before s errand.after

theorem stake_destination {errand : Errand} {clock : Clock} :
    (destination clock true errand).stake (beginsEpoch errand) = errand.after := by
  cases errand <;> rfl

/-- An errand that gives up leaves the worker without a stake, or with what it would have given
back. -/
theorem stake_destination_false {errand : Errand} {clock : Clock} :
    (errand.before = .none ∧ (destination clock false errand).stake (beginsEpoch errand) = .none) ∨
      (errand.before ≠ .none ∧
        (destination clock false errand).stake (beginsEpoch errand) = errand.after) := by
  cases errand <;> first | exact Or.inl ⟨rfl, rfl⟩ | exact Or.inr ⟨by simp [Errand.before], rfl⟩

/-- A turn leaves mode word and stake alone, or carries out an errand, or gives one up. -/
theorem mode (T : Turn b s d p q reply d' p' s' b') (hp : p.Sound d)
    (hword : s.memory.read Runtime.modeAddr = s.mode.encode) :
    ModeEffect s (p.stake d) s' (p'.stake d') := by
  -- An errand that gives up changes the stake only when there was one.
  have given {errand : Errand} (hd : d = false) (hnone : errand.before ≠ .none →
      errand.change? s.mode = none) : ModeEffect s errand.before s
        ((destination s.clock false errand).stake (d || beginsEpoch errand)) := by
    rw [hd, Bool.false_or]
    rcases @stake_destination_false errand s.clock with ⟨hbefore, hstake⟩ | ⟨hbefore, hstake⟩
    · rw [hstake, hbefore]
      exact .kept rfl
    · rw [hstake]
      exact .refused errand rfl hbefore (hnone hbefore)
  -- A word that was found is the one that the errand applies to.
  have found {errand : Errand} {seen next : ModeSnapshot}
      (hs : (SwapStage.swap seen next).Sound errand)
      (hfound : s.memory.read Runtime.modeAddr = seen.encode) :
      errand.change? s.mode = some next := by
    have hseen : s.mode = seen := by rw [Shared.mode, hfound, ModeSnapshot.decode_encode hs.1]
    rw [hseen]
    exact hs.2
  cases T with
  | call alive => exact .kept rfl
  | retire outside => exact .kept rfl
  | retireEpoch inside =>
    rw [inside]
    exact .kept rfl
  | flush => exact .kept rfl
  | toEpoch failures inside =>
    rw [inside]
    exact .kept rfl
  | toJoin failures outside change =>
    rw [outside]
    exact .kept rfl
  | toLock failures outside =>
    rw [outside]
    exact .kept rfl
  | toHardware failures outside => exact .kept rfl
  | enter failures enters => exact .kept rfl
  | check failures reads hardware => exact .kept rfl
  | refuse failures r abort => exact .kept rfl
  | execution failures turn past => exact .kept (hp.2.turn turn past).2
  | settle failures value ticks => exact .kept rfl
  | retry failures failures' abort ticks => exact .kept rfl
  | toSoftware failures failures' abort ticks =>
    rw [hp.1]
    exact .kept rfl
  | load change => exact .kept rfl
  | inapplicable change => exact given hp.1 fun _ => change
  | @swap errand seen next hfound mode =>
    rw [hp.1, Bool.false_or, stake_destination]
    exact .changed errand rfl (found hp.2 hfound)
  | @swapMode errand seen next hfound mode => exact .changed errand rfl (found hp.2 hfound)
  | reload lost persistent => exact .kept rfl
  | @giveUp errand seen next lost persistent =>
    apply given hp.1
    intro hbefore
    -- Only the lock is given back without another try, and it is swapped from the locked word.
    cases errand with
    | unlock ending =>
      obtain ⟨rfl, -⟩ := Errand.unlock_change?_eq_some_iff.1 hp.2.2
      cases hchange : (Errand.unlock ending).change? s.mode with
      | none => rfl
      | some next' =>
        rw [(Errand.unlock_change?_eq_some_iff.1 hchange).1] at hword
        exact absurd hword lost
    | register failures => exact absurd rfl hbefore
    | join failures => exact absurd rfl hbefore
    | lock failures => exact absurd rfl hbefore
    | flip failures => cases persistent
    | leave ending => cases persistent
    | endEpoch ending => cases persistent
  | announce seen next =>
    rw [hp.1, Bool.false_or, stake_destination]
    exact .kept rfl
  | software place turn => exact .kept (hp.2.word turn)
  | commit place turn =>
    have hd : d = true ↔ place = .epoch := hp.1
    have hw := hp.2.word turn
    cases place with
    | epoch =>
      rw [hd.2 rfl]
      exact .kept hw
    | joined => exact .kept hw
    | lock => exact .kept hw
  | stay value ticks => exact .kept rfl
  | goBack value ticks =>
    have hd : d = true := hp
    rw [hd]
    exact .kept rfl
  | readRegion failures reads => exact .kept rfl
  | readSoftware place reads => exact .kept rfl
  | writeRegion failures writes => exact .kept rfl
  | writeSoftware place tx a v mask => exact .kept rfl
  | abort failures r code => exact .kept rfl
  | endRegion failures r result => exact .kept rfl
  | endSoftware place tx result => exact .kept rfl
  | panicRegion failures r => exact .kept rfl
  | panicSoftware place tx =>
    have hd : d = true ↔ place = .epoch := hp.1
    cases place with
    | epoch =>
      rw [hd.2 rfl]
      exact .kept rfl
    | joined => exact .kept rfl
    | lock => exact .kept rfl

theorem isSupported_exchanged (b : Backend) (s : Shared) (seen next : ModeSnapshot) :
    (exchanged b s seen next).isSupported = b.isSupported := by
  cases b <;> rfl

/-- No turn makes an emulator anything else. -/
theorem isSupported (T : Turn b s d p q reply d' p' s' b') (h : b.isSupported = true) :
    b'.isSupported = true := by
  cases T with
  | enter failures enters => rwa [Backend.isSupported_enter enters]
  | execution failures turn past =>
    cases turn with
    | refused enters => rwa [Backend.isSupported_enter enters]
    | entered enters => rwa [Backend.isSupported_enter enters]
    | commit value commits => exact (Backend.commit_ok commits).2.2.2
    | _ => exact h
  | swap found mode => rwa [isSupported_exchanged]
  | swapMode found mode => rwa [isSupported_exchanged]
  | reload lost persistent => rwa [isSupported_exchanged]
  | giveUp lost persistent => rwa [isSupported_exchanged]
  | _ => exact h

end Worker.Turn

end HybridTM
