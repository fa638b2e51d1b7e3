import HybridTM.Proofs.DataTurns
import HybridTM.Proofs.ModeInvariant
import Mathlib.Data.Finset.Insert
import Mathlib.Data.List.Permutation

/-!
# Serializability across paths

Workers that run their calls on whatever mixture of paths, over an emulator with whatever faults,
have a serial order of the calls that committed: one after the other they return the same values and
leave the same words of data behind (`World.serializable_of_reachable`). One thing of the final
invocations has to be kept for that, namely which reads failed. A body that goes on after a failed
read in an optimistic attempt may return a value that it returns in no serial order
(`World.swallowed_failure`). On the other paths no read fails in an invocation that commits.

The invariant is that all workers carry their invocations against one history of memories, through
which a serial order of the calls passes (`World.Serial`).
-/

set_option autoImplicit false

namespace HybridTM

/-! ## What the others are doing -/

namespace System.Valid

variable {ι : Type} [Fintype ι] {s : System ι} {i j : ι}

/-- Beside a shared call nobody holds the global lock. -/
theorem not_exclusive (V : s.Valid) (h : (s.worker i).phase.IsShared) :
    (s.worker j).phase.role? ≠ some .exclusive := by
  intro hrole
  obtain ⟨place, call, hi, hplace⟩ := h
  obtain ⟨placeⱼ, callⱼ, hj, hexclusive⟩ := Phase.exists_of_role? hrole
  obtain ⟨hstakeⱼ, Eⱼ⟩ := V.stake_of_software hj
  have hlock : placeⱼ = .lock := by
    by_contra hne
    exact Eⱼ.shared hne hexclusive
  rw [hlock] at hstakeⱼ
  -- The mode would be software and global lock at once.
  have hmode := mode_of_place V.balanced (V.stake_of_software hi).1 hplace
  rw [V.balanced.eq_locked hstakeⱼ] at hmode
  cases hmode

/-- In hardware mode and under the global lock no other software call is under way. -/
theorem role_of_alone [DecidableEq ι] (V : s.Valid)
    (h : Worker.Turn.Alone s.runtime.engine.shared (s.worker i).phase) (hj : j ≠ i) :
    (s.worker j).phase.role? = none := by
  cases hphase : (s.worker j).phase with
  | software place call =>
    exfalso
    rcases h with hhw | ⟨callᵢ, hi⟩
    · exact V.not_software_of_hw hhw j place call hphase
    · -- Under the lock only its holder has a stake.
      have hstake := (V.stake_of_software hphase).1
      have hlock := (V.stake_of_software hi).1
      have hglock : s.runtime.mode.mode = .glock := by
        rw [V.balanced.eq_locked hlock]
        rfl
      rcases V.balanced.stake_of_glock hglock j with hnone | hsame
      · rw [hnone] at hstake
        cases place <;> cases hstake
      · exact hj (V.balanced.lock_unique hsame hlock)
  | _ => rfl

end System.Valid

/-! ## The calls that committed -/

namespace World

variable {ι : Type} [DecidableEq ι] [Fintype ι]

/-- The calls of all workers but one that have committed and not yet returned. -/
noncomputable def underwayBut (w : World ι) (i : ι) : List (Completed ι) :=
  (Finset.univ.erase i).toList.filterMap w.pending?

theorem underway_perm (w : World ι) (i : ι) :
    w.underway.Perm ((w.pending? i).toList ++ w.underwayBut i) := by
  have hall : (Finset.univ : Finset ι).toList.Perm (i :: (Finset.univ.erase i).toList) := by
    have h := Finset.toList_insert (Finset.notMem_erase i (Finset.univ : Finset ι))
    rwa [Finset.insert_erase (Finset.mem_univ i)] at h
  have h := hall.filterMap w.pending?
  rw [List.filterMap_cons] at h
  unfold underway underwayBut
  cases hpending : w.pending? i <;> rw [hpending] at h <;> exact h

theorem underwayBut_congr {w w' : World ι} {i : ι}
    (h : ∀ j, j ≠ i → w'.pending? j = w.pending? j) : w'.underwayBut i = w.underwayBut i := by
  apply List.filterMap_congr
  intro j hj
  apply h j
  exact (Finset.mem_erase.1 (Finset.mem_toList.1 hj)).1

/-! ## The invariant -/

/-- All workers carry their invocations against one history of memories, and a serial order of the
calls that committed passes through it. -/
structure Serial (m₀ : Memory) (w : World ι) (order : List (Completed ι)) (m : Memory)
    (h : History) (held : Bool) : Prop where
  /-- The mode protocol is kept. -/
  valid : w.system.Valid
  /-- The regions are emulated. -/
  supported : w.system.runtime.backend.isSupported = true
  /-- Memory and clock show the end of the history. -/
  shows : w.system.runtime.engine.shared.Shows Runtime.IsData h held
  /-- All invocations are carried. -/
  carries : ∀ i, (w.system.worker i).phase.Carries h w.clock (w.body i)
  /-- At most one attempt is serial. -/
  unique : ∀ i j, (w.system.worker i).phase.role? = some .serial →
    (w.system.worker j).phase.role? = some .serial → i = j
  /-- The order passes through the history. -/
  passes : Passes m₀ order m h
  /-- It consists of the calls that committed. -/
  calls : order.Perm (w.returned ++ w.underway)
  /-- Reads of final invocations fail in optimistic attempts only. -/
  unfailing : ∀ c ∈ order, c.path ≠ .software → c.Unfailing

namespace Serial

variable {m₀ m : Memory} {w w' : World ι} {order : List (Completed ι)} {h h' : History}
  {held held' : Bool} {i : ι}

omit [DecidableEq ι] in
theorem start {r : Runtime} (created : r.Created) (emulated : r.backend.isSupported = true) :
    Serial r.memory (start r : World ι) [] r.memory (.start r.memory) false where
  valid := System.valid_start created
  supported := emulated
  shows := by
    obtain ⟨backend, config, data, metrics, hcreate⟩ := created
    have hshared := (Runtime.create_ok hcreate).1
    refine ⟨?_, .refl _ _, Nat.zero_lt_succ _⟩
    show r.engine.shared.clock = _
    rw [hshared]
    exact Clock.zero_eq_of
  carries _ := trivial
  unique _ _ hr := by cases hr
  passes := .start r.memory
  calls := by
    have hnone : (World.start r : World ι).underway = [] :=
      List.filterMap_eq_nil_iff.2 fun _ _ => rfl
    rw [hnone]
    exact .nil
  unfailing _ hc := absurd hc List.not_mem_nil

omit [DecidableEq ι] in
/-- While one worker takes or moves the clock no other attempt is serial. -/
theorem not_serial (V : Serial m₀ w order m h held) {j : ι} (hj : j ≠ i)
    (hfree : held = false ∨ (w.system.worker i).phase.role? = some .serial) :
    (w.system.worker j).phase.role? ≠ some .serial := by
  intro hr
  rcases hfree with rfl | hi
  · cases (V.carries j).held_of_serial V.shows hr
  · exact hj (V.unique j i hr hi)

/-- After a step of one worker all carry their invocations. -/
theorem carries_after (V : Serial m₀ w order m h held) {s : System ι} {q : Request}
    {I : Invocation} (hothers : ∀ j, j ≠ i → s.worker j = w.system.worker j)
    (T : Worker.Turn.Carried h held w.system.runtime.engine.shared (w.system.worker i).phase
      (w.body i) q (s.worker i).phase s.runtime.engine.shared I h' held') (j : ι) :
    (s.worker j).phase.Carries h' s.runtime.engine.clock (Function.update w.body i I j) := by
  -- The worker itself carries what its turn says, and the others do not notice.
  by_cases hj : j = i
  · subst hj
    rw [Function.update_self]
    exact T.carries
  · rw [Function.update_of_ne hj, hothers j hj]
    exact T.effect.others (V.carries j) V.valid.not_exclusive (V.not_serial hj)
      fun halone => V.valid.role_of_alone halone hj

/-- Still at most one attempt is serial. -/
theorem unique_after (V : Serial m₀ w order m h held) {s : System ι} {q : Request}
    {I : Invocation} (hothers : ∀ j, j ≠ i → s.worker j = w.system.worker j)
    (T : Worker.Turn.Carried h held w.system.runtime.engine.shared (w.system.worker i).phase
      (w.body i) q (s.worker i).phase s.runtime.engine.shared I h' held') (j l : ι)
    (hj : (s.worker j).phase.role? = some .serial) (hl : (s.worker l).phase.role? = some .serial) :
    j = l := by
  -- A worker becomes serial only while no other is.
  by_cases hji : j = i <;> by_cases hli : l = i
  · rw [hji, hli]
  · subst hji
    rw [hothers l hli] at hl
    exact absurd hl (V.not_serial hli (T.serial hj).symm)
  · subst hli
    rw [hothers j hji] at hj
    exact absurd hj (V.not_serial hji (T.serial hl).symm)
  · rw [hothers j hji] at hj
    rw [hothers l hli] at hl
    exact V.unique j l hj hl

/-- The calls that committed before a step of one worker. -/
theorem calls_perm (V : Serial m₀ w order m h held) (i : ι) : order.Perm (w.returned ++
    ((w.system.worker i).phase.pending?.map ((w.body i).completed i)).toList ++
      w.underwayBut i) := by
  rw [List.append_assoc]
  exact V.calls.trans ((w.underway_perm i).append_left w.returned)

/-- The calls that committed after it. -/
theorem calls_after {s : System ι} {q : Request} {I : Invocation}
    (hothers : ∀ j, j ≠ i → s.worker j = w.system.worker j)
    (stays : (s.worker i).phase.pending? = none ∨ I = w.body i) :
    ((w.after i q s I).returned ++ (w.after i q s I).underway).Perm (w.returned ++
      (((s.worker i).phase.settled? q).map ((w.body i).completed i)).toList ++
        w.underwayBut i) := by
  have hbut : (w.after i q s I).underwayBut i = w.underwayBut i := by
    apply underwayBut_congr
    intro j hj
    simp only [pending?, after, hothers j hj, Function.update_of_ne hj]
  have hown : (w.after i q s I).pending? i =
      (s.worker i).phase.pending?.map ((w.body i).completed i) := by
    simp only [pending?, after, Function.update_self]
    rcases stays with hnone | rfl
    · rw [hnone]
      rfl
    · rfl
  have hsettled : (((s.worker i).phase.settled? q).map ((w.body i).completed i)).toList =
      (((s.worker i).phase.returns? q).map ((w.body i).completed i)).toList ++
        ((s.worker i).phase.pending?.map ((w.body i).completed i)).toList := by
    rw [Option.toList_map, Option.toList_map, Option.toList_map, Phase.toList_settled?,
      List.map_append]
  have hunderway := (w.after i q s I).underway_perm i
  rw [hown, hbut] at hunderway
  rw [hsettled, List.append_assoc, List.append_assoc]
  exact (hunderway.append_left _).trans (by simp [after])

/-- A step of one worker keeps the invariant. -/
theorem act (V : Serial m₀ w order m h held) {q : Request} {reply : Reply} {s : System ι}
    {I : Invocation} (hact : w.system.act i q = some (reply, s)) (hq : q.SparesMode)
    (room : w.clock.now ≤ s.runtime.engine.clock.now)
    (T : Worker.Turn.Carried h held w.system.runtime.engine.shared (w.system.worker i).phase
      (w.body i) q (s.worker i).phase s.runtime.engine.shared I h' held') :
    ∃ order' m', Serial m₀ (w.after i q s I) order' m' h' held' := by
  have valid : s.Valid := V.valid.act hq hact
  obtain ⟨turn, hothers⟩ := System.turn_of_act hact
  have supported := turn.isSupported V.supported
  have carries := V.carries_after hothers T
  have unique := V.unique_after hothers T
  have before := V.calls_perm i
  have calls := calls_after (q := q) hothers T.stays
  have hshows := T.effect.shows V.shows room
  rcases T.effect.passes V.shows V.passes i with ⟨hsettled, m', P⟩ |
    ⟨value, order', m', hpending, hsettled, hperm, P, hunfailing⟩
  · rw [hsettled] at calls
    exact ⟨order, m', valid, supported, hshows, carries, unique, P, before.trans calls.symm,
      V.unfailing⟩
  · rw [hsettled] at calls
    rw [hpending] at before
    refine ⟨order', m', valid, supported, hshows, carries, unique, P, ?_, ?_⟩
    · -- The call comes in between those that returned and those that did not.
      have hmiddle : ((w.body i).completed i value :: (w.returned ++ w.underwayBut i)).Perm
          (w.returned ++ [(w.body i).completed i value] ++ w.underwayBut i) := by
        rw [List.append_assoc]
        exact List.perm_middle.symm
      simp only [Option.map_none, Option.toList_none, List.append_nil] at before
      exact hperm.trans ((before.cons _).trans (hmiddle.trans calls.symm))
    · intro c hc hpath
      rcases List.mem_cons.1 (hperm.mem_iff.1 hc) with rfl | hc
      · exact hunfailing hpath
      · exact V.unfailing c hc hpath

/-- Every step keeps it. -/
theorem step (V : Serial m₀ w order m h held) (hstep : Step w w') :
    ∃ order' m' h' held', Serial m₀ w' order' m' h' held' := by
  cases hstep with
  | body i steps room =>
    obtain ⟨⟨reply, s⟩, hact, rfl⟩ := Option.map_eq_some_iff.1 steps
    obtain ⟨turn, -⟩ := System.turn_of_act hact
    obtain ⟨h', held', T⟩ :=
      turn.data_body (V.valid.sound i) V.supported (V.carries i) V.shows rfl
    obtain ⟨order', m', V'⟩ := V.act hact (sparesMode_request _) room T
    exact ⟨order', m', h', held', V'⟩
  | own i q p steps room =>
    unfold stepOwn at steps
    split at steps
    · next hown =>
      obtain ⟨⟨reply, s⟩, hact, rfl⟩ := Option.map_eq_some_iff.1 steps
      obtain ⟨turn, -⟩ := System.turn_of_act hact
      obtain ⟨h', held', T⟩ := turn.data_own (V.valid.sound i) (V.carries i) V.shows hown p
      obtain ⟨order', m', V'⟩ := V.act hact (sparesMode_of_isOwn hown) room T
      exact ⟨order', m', h', held', V'⟩
    · cases steps
  | faults f =>
    refine ⟨order, m, h, held, V.valid.step (.faults f), ?_, V.shows, V.carries, V.unique,
      V.passes, V.calls, V.unfailing⟩
    exact (Backend.isSupported_modifyFaults f).trans V.supported

end Serial

/-! ## Serializability -/

/-- A serial order explains a world that began with a runtime. -/
structure ExplainedBy (w : World ι) (r : Runtime) (order : List (Completed ι)) (m : Memory) :
    Prop where
  /-- The order consists of the calls that committed. -/
  calls : order.Perm (w.returned ++ w.underway)
  /-- While all workers rest these are the calls that returned. -/
  returned : (∀ i, ∃ last, (w.system.worker i).phase = .resting last) →
    order.Perm w.returned
  /-- The final invocations, run alone in this order with the reads failing that failed, give the
  values that the calls returned. -/
  replays : Replays Completed.replay r.memory order m
  /-- They leave the words of data as they are. -/
  data : Memory.SameOn Runtime.IsData m w.memory
  /-- If no read failed in a final invocation, the final invocations give the same when they simply
  run alone. -/
  runsAlone : (∀ c ∈ order, c.Unfailing) → Replays Completed.runAlone r.memory order m
  /-- None failed on other paths than the optimistic one. -/
  unfailing : ∀ c ∈ order, c.path ≠ .software → c.Unfailing

omit [DecidableEq ι] in
theorem underway_of_resting {w : World ι}
    (h : ∀ i, ∃ last, (w.system.worker i).phase = .resting last) : w.underway = [] := by
  apply List.filterMap_eq_nil_iff.2
  intro i _
  obtain ⟨last, hlast⟩ := h i
  rw [pending?, hlast]
  rfl

omit [DecidableEq ι] in
theorem Serial.explainedBy {r : Runtime} {w : World ι} {order : List (Completed ι)} {m : Memory}
    {h : History} {held : Bool} (V : Serial r.memory w order m h held) :
    w.ExplainedBy r order m where
  calls := V.calls
  returned hrest := by
    have hcalls := V.calls
    rwa [underway_of_resting hrest, List.append_nil] at hcalls
  replays := V.passes.replays
  data := V.passes.ends.trans V.shows.memory.symm
  runsAlone := V.passes.replays.runAlone
  unfailing := V.unfailing

/-- The invariant holds of every reachable world. -/
theorem serial_of_reachable {r : Runtime} (created : r.Created)
    (emulated : r.backend.isSupported = true) {w : World ι} (hw : Reachable r w) :
    ∃ order m h held, Serial r.memory w order m h held := by
  induction hw with
  | refl => exact ⟨_, _, _, _, .start created emulated⟩
  | tail _ hstep ih =>
    obtain ⟨order, m, h, held, V⟩ := ih
    exact V.step hstep

/-- Whatever workers over an emulator do, on whatever mixture of paths, there is a serial order of
the calls that committed. -/
theorem serializable_of_reachable {r : Runtime} (created : r.Created)
    (emulated : r.backend.isSupported = true) {w : World ι} (hw : Reachable r w) :
    ∃ order m, w.ExplainedBy r order m := by
  obtain ⟨order, m, h, held, V⟩ := serial_of_reachable created emulated hw
  exact ⟨order, m, V.explainedBy⟩

/-! ## A failure that is swallowed -/

/-- A body that reads two words and returns the second, or the first if the second read fails. -/
def swallower : Program :=
  .read 0 fullMask fun
    | .error err => .fail err
    | .ok first => .read 1 fullMask fun
        | .error _ => .ret first
        | .ok second => .ret second

/-- A body that writes both words. -/
def overwriter : Program := .write 0 10 fullMask fun _ => .write 1 20 fullMask fun _ => .ret 0

/-- The second worker overwrites both words between the two reads of the first. Its failed read is
swallowed, and the first worker returns a value that it returns in no serial order. -/
theorem swallowed_failure :
    ∃ (backend : Backend) (r : Runtime) (w : World Bool),
      Runtime.create backend {} [1, 2] .empty = .ok r ∧ backend.isSupported = true ∧
        Reachable r w ∧ w.returned.map (·.value) = [0, 1] ∧
        ∀ order, order.Perm w.returned → ¬ ∃ m, Replays Completed.runAlone r.memory order m := by
  let backend : Backend :=
    .emulated { Emulator.withCapacity 512 with faults := Faults.none.failNext .unsupported 1 }
  let own (i : Bool) (q : Request) : Bool × Option (Request × Program) := (i, some (q, .panic))
  let begins (i : Bool) (p : Program) : Bool × Option (Request × Program) :=
    (i, some (.advance, p))
  let body (i : Bool) : Bool × Option (Request × Program) := (i, none)
  -- The first worker turns to software and reads a word.
  let before := [own false .call, own false .advance, own false .advance, own false (.account 1),
    own false .advance, own false .advance, own false .advance, own false .advance,
    own false .advance, own false .advance, begins false swallower, body false]
  -- The second one joins it and commits.
  let between := [own true .call, own true .advance, own true .advance, begins true overwriter,
    body true, body true, body true, own true .advance, own true .advance, own true .advance]
  let rest := [body false, body false, own false .advance, own false (.account 1)]
  have facts : ((Runtime.create backend {} [1, 2] .empty).toOption.bind fun r =>
      ((start r : World Bool).runSteps (before ++ between ++ rest)).map fun w =>
        (w.returned.map (·.value), decide (∀ order ∈ w.returned.permutations',
          ¬ ∃ m, Replays Completed.runAlone r.memory order m))) = some ([0, 1], true) := by
    decide +kernel
  obtain ⟨r, w, hcreate, hreach, hw⟩ := reachable_of_runSteps facts
  obtain ⟨hvalues, horders⟩ := Prod.mk.inj hw
  refine ⟨backend, r, w, hcreate, rfl, hreach, hvalues, ?_⟩
  intro order horder
  exact of_decide_eq_true horders order (List.mem_permutations'.2 horder)

/-- There is a serial order all the same in which the second read of the first worker fails. -/
theorem serializable_of_swallowed_failure :
    ∃ (backend : Backend) (r : Runtime) (w : World Bool),
      Runtime.create backend {} [1, 2] .empty = .ok r ∧ r.backend.isSupported = true ∧
        Reachable r w ∧ w.returned.map (·.value) = [0, 1] ∧
        ∃ order m, w.ExplainedBy r order m := by
  obtain ⟨backend, r, w, hcreate, hsupported, hreach, hvalues, -⟩ := swallowed_failure
  have emulated : r.backend.isSupported = true := by
    rw [(Runtime.create_ok hcreate).2]
    exact hsupported
  exact ⟨backend, r, w, hcreate, emulated, hreach, hvalues,
    serializable_of_reachable ⟨_, _, _, _, hcreate⟩ emulated hreach⟩

end World

end HybridTM
