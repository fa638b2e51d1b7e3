import HybridTM.Proofs.Soundness

/-!
# The mode invariant

In every reachable state of any number of workers the mode word is balanced and every worker is
sound (`System.valid_of_reachable`). With this comes everything that the mode protocol promises
(`System.orderly_of_reachable`): the counts count, the mode says who is there, a body runs in
software only in software mode and under the global lock only as its holder, and whoever has
something to give back can give it back.
-/

set_option autoImplicit false

namespace HybridTM

/-- A runtime is created with a valid configuration, over the words of data beside an initial mode
word, and shows hardware. -/
theorem Runtime.create_eq_ok {backend : Backend} {config : HybridConfig} {data : List Word}
    {metrics : Metrics} {r : Runtime} (h : create backend config data metrics = .ok r) :
    config.validate = .ok () ∧
      r = showMode
        { config := config
          backend := backend
          engine := .new config.software (.ofWords (ModeSnapshot.initial.encode :: data))
          metrics := metrics } .hw := by
  unfold create at h
  cases hvalidate : config.validate with
  | error e =>
    rw [hvalidate] at h
    cases h
  | ok u =>
    rw [hvalidate] at h
    simp only [bind, Except.bind] at h
    split at h
    · cases h
    · exact ⟨rfl, (Except.ok.inj h).symm⟩

/-- Memory has the words of data beside an initial mode word, and nobody has taken the clock. -/
theorem Runtime.create_ok {backend : Backend} {config : HybridConfig} {data : List Word}
    {metrics : Metrics} {r : Runtime} (h : create backend config data metrics = .ok r) :
    r.engine.shared = ⟨.ofWords (ModeSnapshot.initial.encode :: data), .zero⟩ ∧
      r.backend = backend := by
  obtain ⟨-, rfl⟩ := create_eq_ok h
  exact ⟨rfl, rfl⟩

/-- It begins in hardware mode, with nobody counted. -/
theorem Runtime.Created.mode {r : Runtime} (created : r.Created) :
    r.memory.read modeAddr = ModeSnapshot.initial.encode ∧ r.mode = .initial := by
  obtain ⟨backend, config, data, metrics, hcreate⟩ := created
  have hread : r.memory.read modeAddr = ModeSnapshot.initial.encode := by
    rw [memory, Engine.memory, (create_ok hcreate).1]
    simp [Memory.ofWords, modeAddr]
  refine ⟨hread, ?_⟩
  rw [Runtime.mode, hread, ModeSnapshot.decode_encode ModeSnapshot.inRange_initial]

namespace System

variable {ι : Type}

/-- The stakes of all workers. -/
def stake (s : System ι) (i : ι) : Stake := (s.worker i).stake

/-- A worker that is about to make the step of an errand that loads or swaps the mode word. -/
def AboutTo (s : System ι) (i : ι) (errand : Errand) : Prop :=
  (s.worker i).phase = .switching errand .load ∨
    ∃ seen next, (s.worker i).phase = .switching errand (.swap seen next)

variable [Fintype ι]

/-- What the mode protocol promises. -/
structure Orderly (s : System ι) : Prop where
  /-- The first count is the number of workers between registering and ending their epoch. -/
  deferred : s.runtime.mode.deferred = numberOf Stake.isDeferred s.stake
  /-- The second is the number of workers in an epoch that they joined. -/
  undeferred : s.runtime.mode.undeferred = numberOf Stake.isJoined s.stake
  /-- The lock is held just when one worker holds it. -/
  glock : s.runtime.mode.mode = .glock ↔ ∃! i, s.stake i = .lock
  /-- No two workers hold it. -/
  exclusive : ∀ i j, s.stake i = .lock → s.stake j = .lock → i = j
  /-- While it is held nobody is counted. -/
  alone : s.runtime.mode.mode = .glock →
    s.runtime.mode.deferred = 0 ∧ s.runtime.mode.undeferred = 0
  /-- In hardware mode nobody joined an epoch. -/
  hardware : s.runtime.mode.mode = .hw → s.runtime.mode.undeferred = 0
  /-- In software mode somebody is counted. -/
  software : s.runtime.mode.mode = .sw →
    s.runtime.mode.deferred ≠ 0 ∨ s.runtime.mode.undeferred ≠ 0
  /-- A body runs in software in software mode only. -/
  softwarePath : ∀ i, (s.worker i).path? = some .software ∨ (s.worker i).path? = some .serial →
    s.runtime.mode.mode = .sw
  /-- A body runs under the global lock only while its own worker holds it. -/
  glockPath : ∀ i, (s.worker i).path? = some .glock →
    s.stake i = .lock ∧ s.runtime.mode = .locked
  /-- Who leaves an epoch finds a positive count. -/
  leave : ∀ i ending, s.AboutTo i (.leave ending) → 0 < s.runtime.mode.undeferred
  /-- So does who ends an epoch. -/
  endEpoch : ∀ i ending, s.AboutTo i (.endEpoch ending) → 0 < s.runtime.mode.deferred
  /-- The swap that gives the lock back succeeds. -/
  unlock : ∀ i ending seen next,
    (s.worker i).phase = .switching (.unlock ending) (.swap seen next) →
    (s.runtime.swapMode seen next).1 = true

/-- The mode word is balanced and every worker is sound. -/
structure Valid (s : System ι) : Prop where
  /-- The mode word holds its contents. -/
  word : s.runtime.memory.read Runtime.modeAddr = s.runtime.mode.encode
  /-- They are balanced. -/
  balanced : Balanced s.runtime.mode s.stake
  /-- Every worker is sound. -/
  sound : ∀ i, (s.worker i).phase.Sound (s.worker i).deferred

/-! ## Every reachable state is valid -/

variable [DecidableEq ι]

omit [DecidableEq ι] in
theorem valid_start {r : Runtime} (created : r.Created) : (start r : System ι).Valid := by
  obtain ⟨hread, hmode⟩ := created.mode
  refine ⟨?_, ?_, fun _ => trivial⟩
  · show r.memory.read Runtime.modeAddr = r.mode.encode
    rw [hread, hmode]
  · show Balanced r.mode _
    rw [hmode]
    exact .initial fun _ => rfl

/-- What a turn does to the mode word keeps it balanced. -/
theorem balanced_of_effect {stake : ι → Stake} {i : ι} {a : Stake} {x x' : Shared}
    (hword : x.memory.read Runtime.modeAddr = x.mode.encode) (B : Balanced x.mode stake)
    (E : Worker.Turn.ModeEffect x (stake i) x' a) :
    x'.memory.read Runtime.modeAddr = x'.mode.encode ∧
      Balanced x'.mode (Function.update stake i a) := by
  cases E with
  | kept word =>
    rw [Shared.mode, word, Function.update_eq_self]
    exact ⟨hword, B⟩
  | @changed errand next hbefore change =>
    have hbalanced := B.change hbefore change
    have hread : (x.setMode next).memory.read Runtime.modeAddr = next.encode :=
      Memory.read_write_self _ _ _
    rw [Shared.mode, hread, ModeSnapshot.decode_encode hbalanced.inRange]
    exact ⟨rfl, hbalanced⟩
  | refused errand hbefore some change =>
    exact ⟨hword, B.refused hbefore (hbefore ▸ some) change⟩

/-- A step of one worker keeps the system valid. -/
theorem Valid.act {s s' : System ι} (V : s.Valid) {i : ι} {q : Request} (hq : q.SparesMode)
    {reply : Reply} (h : s.act i q = some (reply, s')) : s'.Valid := by
  obtain ⟨T, hothers⟩ := turn_of_act h
  have hstake : s'.stake = Function.update s.stake i (s'.worker i).stake := by
    funext j
    by_cases hj : j = i
    · subst hj
      simp [stake]
    · simp [stake, Function.update_of_ne hj, hothers j hj]
  obtain ⟨word, balanced⟩ := balanced_of_effect V.word V.balanced (T.mode (V.sound i) V.word)
  refine ⟨word, by rw [hstake]; exact balanced, ?_⟩
  intro j
  -- The other workers do not move.
  by_cases hj : j = i
  · subst hj
    exact T.sound (V.sound j) hq
  · rw [hothers j hj]
    exact V.sound j

/-- So does every step. -/
theorem Valid.step {s s' : System ι} (V : s.Valid) (h : Step s s') : s'.Valid := by
  cases h with
  | act i q spares acts => exact V.act spares acts
  | faults f => exact ⟨V.word, V.balanced, V.sound⟩

theorem valid_of_reachable {r : Runtime} (created : r.Created) {s : System ι}
    (h : Reachable r s) : s.Valid := by
  induction h with
  | refl => exact valid_start created
  | tail _ hstep V => exact V.step hstep

/-! ## What follows -/

theorem ofRole_eq_glock_iff {role : Role} : Path.ofRole role = .glock ↔ role = .exclusive := by
  cases role <;> simp [Path.ofRole]

omit [DecidableEq ι] in
/-- A software call has the stake of its place, and is entitled to it. -/
theorem Valid.stake_of_software {s : System ι} (V : s.Valid) {i : ι} {place : Place} {call : Call}
    (h : (s.worker i).phase = .software place call) :
    s.stake i = place.stake ∧ call.Entitled place := by
  have hsound := V.sound i
  rw [h] at hsound
  exact ⟨by rw [stake, Worker.stake, h]; rfl, hsound.2⟩

omit [DecidableEq ι] in
/-- In hardware mode no software call is under way. -/
theorem Valid.not_software_of_hw {s : System ι} (V : s.Valid) (hmode : s.runtime.mode.mode = .hw)
    (i : ι) (place : Place) (call : Call) : (s.worker i).phase ≠ .software place call := by
  intro h
  have hstake := (V.stake_of_software h).1
  rcases V.balanced.stake_of_hw hmode i with hnone | hnone <;> rw [hnone] at hstake <;>
    cases place <;> cases hstake

omit [DecidableEq ι] in
/-- A worker that runs a body in software has a stake in the word. -/
theorem Valid.path {s : System ι} (V : s.Valid) {i : ι} {path : Path}
    (h : (s.worker i).path? = some path) (hpath : path ≠ .hardware) :
    ∃ place call, (s.worker i).phase = .software place call ∧
      (path = .glock ↔ place = .lock) ∧ s.stake i = place.stake := by
  unfold Worker.path? Phase.path? at h
  split at h
  · exact absurd (Option.some.inj h).symm hpath
  · next place tx hphase =>
    obtain ⟨hstake, E⟩ := V.stake_of_software hphase
    refine ⟨place, _, hphase, ?_, hstake⟩
    rw [← Option.some.inj h, ofRole_eq_glock_iff]
    constructor
    · intro hrole
      by_contra hplace
      exact E.shared hplace hrole
    · intro hplace
      exact E.alone hplace (by simp)
  · cases h

omit [DecidableEq ι] [Fintype ι] in
theorem stake_of_aboutTo {s : System ι} {i : ι} {errand : Errand} (h : s.AboutTo i errand) :
    s.stake i = errand.before := by
  rcases h with h | ⟨seen, next, h⟩ <;> rw [stake, Worker.stake, h] <;> rfl

omit [DecidableEq ι] in
/-- A place in software is one only in software mode. -/
theorem mode_of_place {s : ModeSnapshot} {stake : ι → Stake} {i : ι} (B : Balanced s stake)
    {place : Place} (hi : stake i = place.stake) (hplace : place ≠ .lock) : s.mode = .sw := by
  cases place with
  | epoch => exact B.epoch i hi
  | joined => exact B.mode_of_joined hi
  | lock => exact absurd rfl hplace

theorem Valid.orderly {s : System ι} (V : s.Valid) : s.Orderly := by
  have B := V.balanced
  have lock_of_isLock {a : Stake} (ha : a.isLock = true) : a = .lock := by
    cases a <;> first | rfl | cases ha
  refine ⟨B.deferred, B.undeferred, ?_, fun i j hi hj => B.lock_unique hi hj, B.alone, B.hardware,
    B.software, ?_, ?_, ?_, ?_, ?_⟩
  · rw [B.glock]
    constructor
    · intro hone
      obtain ⟨i, hi⟩ := numberOf_pos_iff.1 (Nat.lt_of_lt_of_eq Nat.one_pos hone.symm)
      exact ⟨i, lock_of_isLock hi, fun j hj => B.lock_unique hj (lock_of_isLock hi)⟩
    · rintro ⟨i, hi, -⟩
      rw [← B.glock, B.eq_locked hi]
      rfl
  · intro i hpath
    have path {path : Path} (hp : (s.worker i).path? = some path) (hhw : path ≠ .hardware)
        (hglock : path ≠ .glock) : s.runtime.mode.mode = .sw := by
      obtain ⟨place, call, -, hplace, hstake⟩ := V.path hp hhw
      exact mode_of_place B hstake fun hlock => hglock (hplace.2 hlock)
    rcases hpath with hpath | hpath
    · exact path hpath (by decide) (by decide)
    · exact path hpath (by decide) (by decide)
  · intro i hpath
    obtain ⟨place, call, -, hplace, hstake⟩ := V.path hpath (by decide)
    rw [hplace.1 rfl] at hstake
    exact ⟨hstake, B.eq_locked hstake⟩
  · intro i ending h
    exact Nat.pos_of_ne_zero (B.undeferred_ne_zero (stake_of_aboutTo h))
  · intro i ending h
    exact Nat.pos_of_ne_zero (B.deferred_ne_zero (i := i) (by rw [stake_of_aboutTo h]; rfl))
  · intro i ending seen next h
    -- The word is locked, and the swap expects the locked word.
    have hstake := stake_of_aboutTo (Or.inr ⟨seen, next, h⟩)
    have hsound := V.sound i
    rw [h] at hsound
    obtain ⟨rfl, -⟩ := Errand.unlock_change?_eq_some_iff.1 hsound.2.2
    have hword := V.word
    rw [B.eq_locked hstake] at hword
    rcases hswap : s.runtime.swapMode .locked next with ⟨swapped, r⟩
    rcases Runtime.swapMode_cases hswap with ⟨hswapped, -⟩ | ⟨-, hlost, -⟩
    · exact hswapped
    · exact absurd hword hlost

/-- In every reachable state of any number of workers the mode protocol keeps its promises. -/
theorem orderly_of_reachable {r : Runtime} (created : r.Created) {s : System ι}
    (h : Reachable r s) : s.Orderly :=
  (valid_of_reachable created h).orderly

/-- Without hardware one worker begins an epoch and another joins it. -/
theorem orderly_of_joined_epoch :
    ∃ (r : Runtime) (s : System Bool), Runtime.create .none {} [] .empty = .ok r ∧ Reachable r s ∧
      s.runtime.mode = ⟨.sw, 1, 1⟩ ∧ (s.worker false).path? = some .software ∧
      (s.worker true).path? = some .software ∧ s.Orderly := by
  let steps : List (Bool × Request) := [(false, .call), (false, .advance), (false, .advance),
    (false, .account 1), (false, .advance), (false, .advance), (false, .advance),
    (false, .advance), (false, .advance), (false, .advance), (false, .advance), (true, .call),
    (true, .advance), (true, .advance), (true, .advance)]
  have facts : ((Runtime.create .none {} [] .empty).toOption.bind fun r =>
      ((start r : System Bool).run steps).map fun s =>
        (s.runtime.mode, (s.worker false).path?, (s.worker true).path?)) =
      some (⟨.sw, 1, 1⟩, some .software, some .software) := by
    decide +kernel
  obtain ⟨r, s, hcreate, hreach, hs⟩ :=
    reachable_of_run (by simp [steps, Request.SparesMode]) facts
  obtain ⟨hmode, hpaths⟩ := Prod.mk.inj hs
  obtain ⟨hfalse, htrue⟩ := Prod.mk.inj hpaths
  exact ⟨r, s, hcreate, hreach, hmode, hfalse, htrue,
    orderly_of_reachable ⟨_, _, _, _, hcreate⟩ hreach⟩

end System

end HybridTM
