import HybridTM.Proofs.Buffers
import HybridTM.Proofs.ModeInvariant

/-!
# Errors and panics leave nothing behind

A body may return any error or panic, in any invocation and at any of its steps, and its worker may
be called again. Whatever the bodies do, the words of data are at any time what the attempts that
committed made of them, and a body that panics publishes none of its writes. Once all workers were
dropped, the mode word is initial, the clock is even and the hourglass token is free
(`Chronicle.clean_of_reachable`).

The three are conserved in the same way: what is taken is held by somebody. No turn changes what
others hold, and who was dropped holds nothing.
-/

set_option autoImplicit false

namespace HybridTM

/-- What is taken is held by somebody, also after a step of one worker that leaves what the others
hold. -/
theorem eq_sum_of_others {ι : Type} [Fintype ι] [DecidableEq ι] {f f' : ι → Nat} {n n' : Nat}
    {i : ι} (h : n = ∑ j, f j) (unmoved : ∀ j, j ≠ i → f' j = f j)
    (step : ∀ others, n = f i + others → n' = f' i + others) : n' = ∑ j, f' j := by
  have others : ∑ j ∈ Finset.univ.erase i, f' j = ∑ j ∈ Finset.univ.erase i, f j :=
    Finset.sum_congr rfl fun j hj => unmoved j (Finset.ne_of_mem_erase hj)
  rw [← Finset.add_sum_erase _ f' (Finset.mem_univ i), others]
  exact step _ (h.trans (Finset.add_sum_erase _ f (Finset.mem_univ i)).symm)

/-! ## Before anything happens -/

theorem Policy.holdings_build (p : Policy) : p.build.holdings = 0 := by
  cases p <;> rfl

/-- Nobody holds the token of a runtime that was created. -/
theorem Runtime.token_create {backend : Backend} {config : HybridConfig} {data : List Word}
    {metrics : Metrics} {r : Runtime} (h : create backend config data metrics = .ok r) :
    r.engine.token = false := by
  obtain ⟨-, rfl⟩ := create_eq_ok h
  rfl

/-! ## Who was dropped -/

/-- Without stakes the mode word is initial. -/
theorem Balanced.eq_initial {ι : Type} [Fintype ι] {s : ModeSnapshot} {stake : ι → Stake}
    (B : Balanced s stake) (h : ∀ i, stake i = .none) : s = .initial := by
  have none (kind : Stake → Bool) (hkind : kind .none = false) : numberOf kind stake = 0 := by
    rw [numberOf]
    simp [h, hkind]
  have hdeferred : s.deferred = 0 := B.deferred.trans (none _ rfl)
  have hundeferred : s.undeferred = 0 := B.undeferred.trans (none _ rfl)
  have hmode : s.mode = .hw := by
    cases hmode : s.mode with
    | hw => rfl
    | sw => exact absurd (B.software hmode) (by simp [hdeferred, hundeferred])
    | glock =>
      have hlock := B.glock.1 hmode
      rw [none _ rfl] at hlock
      cases hlock
  calc s = ⟨s.mode, s.deferred, s.undeferred⟩ := rfl
    _ = .initial := by rw [hmode, hdeferred, hundeferred]; rfl

/-- A worker that was dropped has no epoch. -/
theorem Worker.Turn.retired {b b' : Backend} {s s' : Shared} {d d' : Bool} {p p' : Phase}
    {q : Request} {reply : Reply} (T : Turn b s d p q reply d' p' s' b') (S : p.Sound d)
    (before : p.isRetired = true → d = false) (h : p'.isRetired = true) : d' = false := by
  -- Who was on an errand had none.
  have errand {e : Errand} {changed : Bool} {c : Clock} (hd : d = false)
      (h : (destination c changed e).isRetired = true) : (d || beginsEpoch e) = false := by
    rw [hd]
    cases e with
    | flip failures => cases h
    | _ => rfl
  cases T with
  | retire outside => exact outside
  | flush => exact before h
  | inapplicable change => exact errand S.1 h
  | swap found mode => exact errand S.1 h
  | giveUp lost persistent => exact errand S.1 h
  | announce seen next => exact errand S.1 h
  | commit place turn => cases place <;> cases h
  | panicSoftware place tx => cases place <;> cases h
  | endRegion failures r result => cases h
  | _ => cases h

namespace Chronicle

variable {ι : Type} [DecidableEq ι] {r : Runtime} {c c' : Chronicle ι}

/-- Errors and panics leave nothing behind. -/
structure Clean (r : Runtime) (c : Chronicle ι) : Prop where
  /-- The words of data are what the attempts that committed made of them. -/
  memory : Memory.SameOn Runtime.IsData c.shared.memory
    (HybridTM.after (c.log.flatMap Event.published) r.memory)
  /-- A body that panics publishes nothing: its attempt ends, and memory stays. -/
  panics : ∀ i reply c', c.act i .panic = some (reply, c') →
    c'.shared.memory = c.shared.memory ∧
      ∃ path, c'.log = c.log ++ [.ended ⟨path, (c.notes i).writes, .panicked⟩]
  /-- Once all workers were dropped the mode word is initial. -/
  mode : c.Dropped → c.system.runtime.mode = .initial
  /-- The clock is even. -/
  clock : c.Dropped → c.shared.clock.now.toNat % 2 = 0
  /-- The hourglass token is free. -/
  token : c.Dropped → c.system.runtime.engine.token = false

/-- A worker that was dropped has no epoch. -/
theorem deferred_of_retired (created : r.Created) [Fintype ι] (h : Reachable r c) (i : ι)
    (hi : (c.phase i).isRetired = true) : (c.system.worker i).deferred = false := by
  refine h.forall_worker (P := fun w _ => w.phase.isRetired = true → w.deferred = false)
    nofun (fun {c c' i q reply} hc acts before => ?_) i hi
  obtain ⟨T, -, -, -⟩ := turn_of_act acts
  exact T.retired ((System.valid_of_reachable created hc.system).sound i) before

variable [Fintype ι]

theorem memory_of_reachable (created : r.Created) (h : Reachable r c) :
    Memory.SameOn Runtime.IsData c.shared.memory
      (HybridTM.after (c.log.flatMap Event.published) r.memory) := by
  induction h with
  | refl => exact .refl _ _
  | @tail c c' hc hstep ih =>
    cases hstep with
    | act i q spares acts =>
      obtain ⟨T, -, hlog, -⟩ := turn_of_act acts
      have sound := (System.valid_of_reachable created (Reachable.system hc)).sound i
      have effect : Memory.SameOn Runtime.IsData c'.shared.memory
          (HybridTM.after ((c.events i q (c'.phase i)).flatMap Event.published)
            c.shared.memory) := T.effects sound (buffers_of_reachable hc i)
      rw [hlog, List.flatMap_append, after_append]
      exact effect.trans (sameOn_after _ ih)
    | faults f => exact ih

/-- The clock is held by the serial attempts. -/
theorem clock_of_reachable (created : r.Created) (h : Reachable r c) :
    c.shared.clock.isLocked.toNat = ∑ i, (c.phase i).clockHoldings := by
  induction h with
  | refl =>
    obtain ⟨backend, config, data, metrics, hcreate⟩ := created
    have hclock : r.engine.shared.clock = .zero := by rw [(Runtime.create_ok hcreate).1]
    show r.engine.shared.clock.isLocked.toNat = ∑ i : ι, 0
    rw [hclock, Finset.sum_const_zero]
    rfl
  | @tail c c' hc hstep ih =>
    cases hstep with
    | act i q spares acts =>
      obtain ⟨T, -, -, hothers⟩ := turn_of_act acts
      exact eq_sum_of_others (i := i) ih (fun j hj => by rw [phase, (hothers j hj).1]; rfl)
        fun others => T.clock (buffers_of_reachable hc i)
    | faults f => exact ih

/-- The token is held by the workers. -/
theorem token_of_reachable (created : r.Created) (h : Reachable r c) :
    c.system.runtime.engine.token.toNat = ∑ i, (c.system.worker i).holdings := by
  induction h with
  | refl =>
    obtain ⟨backend, config, data, metrics, hcreate⟩ := created
    have hworker : (Worker.new r).holdings = 0 := Policy.holdings_build _
    show r.engine.token.toNat = ∑ i : ι, (Worker.new r).holdings
    rw [Runtime.token_create hcreate, hworker, Finset.sum_const_zero]
    rfl
  | @tail c c' hc hstep ih =>
    cases hstep with
    | act i q spares acts =>
      obtain ⟨-, -, -, hothers⟩ := turn_of_act acts
      exact eq_sum_of_others (i := i) ih (fun j hj => by rw [(hothers j hj).1])
        (posts_of_act acts).token
    | faults f => exact ih

/-- Whatever bodies return and wherever they panic, nothing leaks. -/
theorem clean_of_reachable (created : r.Created) (h : Reachable r c) : c.Clean r where
  memory := memory_of_reachable created h
  panics i reply c' acts := by
    obtain ⟨T, -, hlog, -⟩ := turn_of_act acts
    obtain ⟨hmemory, path, hevents⟩ := T.panics (c.notes i).writes
    exact ⟨hmemory, path, by rw [hlog, events, hevents]⟩
  mode dropped := by
    refine (System.valid_of_reachable created h.system).balanced.eq_initial fun i => ?_
    have hphase : (c.system.worker i).phase = .resting (some .retired) :=
      Phase.eq_of_isRetired (dropped i)
    show (c.system.worker i).stake = .none
    rw [Worker.stake, hphase, deferred_of_retired created h i (dropped i)]
    rfl
  clock dropped := by
    have held := clock_of_reachable created h
    have none (i : ι) : (c.phase i).clockHoldings = 0 := by
      rw [Phase.eq_of_isRetired (dropped i)]
      rfl
    rw [Finset.sum_eq_zero fun i _ => none i] at held
    have hfree : ¬ c.shared.clock.isLocked = true := by
      intro hlocked
      rw [hlocked] at held
      cases held
    rw [Clock.isLocked_iff] at hfree
    omega
  token dropped := by
    have held := token_of_reachable created h
    have none (i : ι) : (c.system.worker i).holdings = 0 := if_pos (dropped i)
    rw [Finset.sum_eq_zero fun i _ => none i] at held
    cases htoken : c.system.runtime.engine.token with
    | false => rfl
    | true =>
      rw [htoken] at held
      cases held

/-- Bodies panic in an epoch that was joined, in a serial attempt that holds the clock while its
thread holds the token, in a region and under the global lock; then a region commits. -/
theorem clean_of_panics_on_every_path :
    ∃ (r : Runtime) (c : Chronicle Bool), r.Created ∧ Reachable r c ∧ c.Dropped ∧
      c.log.filterMap Event.panic? = [.software, .serial, .hardware, .glock] ∧
      c.log.filterMap Event.commit? = [.hardware] ∧
      c.shared.memory.read (Runtime.wordAddr 0) = 6 ∧ c.Clean r := by
  let backend : Backend :=
    .emulated { Emulator.withCapacity 8 with faults := Faults.none.failNext .unsupported 1 }
  let a : Addr := Runtime.wordAddr 0
  -- One worker begins an epoch, and the other joins it.
  let epoch : List (Bool × Request) := [(false, .call), (false, .advance), (false, .advance),
    (false, .account 1), (false, .advance), (false, .advance), (false, .advance),
    (false, .advance), (false, .advance), (false, .advance), (false, .advance), (true, .call),
    (true, .advance), (true, .advance), (true, .advance), (true, .write a 2 fullMask)]
  -- A failure gives the first the token and makes its next attempt serial, and both panic.
  let software : List (Bool × Request) := [(false, .endBody (.error .commitRace)),
    (false, .advance), (false, .advance), (false, .write a 3 fullMask), (true, .panic),
    (true, .advance), (true, .advance), (false, .panic), (false, .retire), (false, .advance),
    (false, .advance), (false, .advance)]
  let hardware : List (Bool × Request) := [(true, .call), (true, .advance), (true, .advance),
    (true, .advance), (true, .write a 4 fullMask), (true, .panic)]
  -- A region that aborts itself leads to the global lock.
  let glock : List (Bool × Request) := [(true, .call), (true, .advance), (true, .advance),
    (true, .advance), (true, .abort 7), (true, .endBody (.ok 5)), (true, .advance),
    (true, .account 1), (true, .advance), (true, .advance), (true, .advance), (true, .advance),
    (true, .advance), (true, .write a 5 fullMask), (true, .panic), (true, .advance),
    (true, .advance)]
  let commit : List (Bool × Request) := [(true, .call), (true, .advance), (true, .advance),
    (true, .advance), (true, .write a 6 fullMask), (true, .endBody (.ok 6)), (true, .advance),
    (true, .advance), (true, .account 1), (true, .retire)]
  have facts : ((Runtime.create backend { maxRetries := 1, software := ⟨1, .hourglass 1⟩ } [1]
      .empty).toOption.bind fun r =>
        ((start r : Chronicle Bool).run (epoch ++ software ++ hardware ++ glock ++ commit)).map
          fun c => ((c.phase false).isRetired && (c.phase true).isRetired,
            c.log.filterMap Event.panic?, c.log.filterMap Event.commit?,
            c.shared.memory.read (Runtime.wordAddr 0))) =
      some (true, [.software, .serial, .hardware, .glock], [.hardware], 6) := by
    decide +kernel
  obtain ⟨r, c, hcreate, hreach, hc⟩ := reachable_of_run
    (by simp [epoch, software, hardware, glock, commit, Request.SparesMode, a, Runtime.wordAddr,
      HybridTM.wordAddr, Runtime.modeAddr]) facts
  simp only [Prod.mk.injEq, Bool.and_eq_true] at hc
  obtain ⟨⟨hfalse, htrue⟩, hpanics, hcommits, hmemory⟩ := hc
  have created : r.Created := ⟨_, _, _, _, hcreate⟩
  have dropped : c.Dropped := fun i => by cases i <;> assumption
  exact ⟨r, c, created, hreach, dropped, hpanics, hcommits, hmemory,
    clean_of_reachable created hreach⟩

end Chronicle

end HybridTM
