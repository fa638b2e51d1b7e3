import HybridTM.Proofs.ModeInvariant

/-!
# Passages between modes

A turn of a worker leaves the mode in the mode word alone, or it is the swap of an errand that
changes the mode and goes on to show the new one (`Worker.Turn.passage`). The mode leads from
hardware to software by a flip, from software to hardware by whoever is the last to leave, and
from hardware to the global lock and back (`Errand.route`).
-/

set_option autoImplicit false

namespace HybridTM

/-- A change of the mode that was made and is not yet shown: the errand that made it, and the
contents of the word before and after it. -/
def Phase.unshown? : Phase → Option (Errand × ModeSnapshot × ModeSnapshot)
  | .switching errand (.announce seen next) => some (errand, seen, next)
  | _ => none

theorem Phase.unshown?_eq_some_iff {p : Phase} {errand : Errand} {seen next : ModeSnapshot} :
    p.unshown? = some (errand, seen, next) ↔ p = .switching errand (.announce seen next) := by
  constructor
  · intro h
    unfold unshown? at h
    split at h
    · cases h
      rfl
    · cases h
  · rintro rfl
    rfl

theorem Worker.unshown?_destination (clock : Clock) (changed : Bool) (errand : Errand) :
    (destination clock changed errand).unshown? = none := by
  cases errand <;> cases changed <;> rfl

/-- A change that is not yet shown is one that the errand makes of what it saw, and one of the
mode. -/
def Phase.Applied (p : Phase) : Prop :=
  ∀ errand seen next, p.unshown? = some (errand, seen, next) →
    errand.change? seen = some next ∧ seen.mode ≠ next.mode

/-! ## Routes -/

/-- The changes of the mode, by the errands that make them. -/
inductive Errand.Route : Errand → Mode → Mode → Prop
  /-- A worker that registered turns the runtime to software. -/
  | flip (failures : UInt32) : Route (.flip failures) .hw .sw
  /-- A call takes the global lock. -/
  | lock (failures : UInt32) : Route (.lock failures) .hw .glock
  /-- It gives the lock back. -/
  | unlock (ending : Ending) : Route (.unlock ending) .glock .hw
  /-- The last to leave is a call that joined an epoch. -/
  | leave (ending : Ending) {mode : Mode} (other : mode ≠ .hw) : Route (.leave ending) mode .hw
  /-- The last to leave is a worker with an epoch of its own. -/
  | endEpoch (ending : Ending) {mode : Mode} (other : mode ≠ .hw) :
      Route (.endEpoch ending) mode .hw

/-- An errand that changes the mode takes its route. -/
theorem Errand.route {errand : Errand} {s s' : ModeSnapshot} (change : errand.change? s = some s')
    (mode : s.mode ≠ s'.mode) : errand.Route s.mode s'.mode := by
  -- Draining leads to hardware or nowhere.
  have drained (t : ModeSnapshot) (hs' : s' = t.drain) (ht : t.mode = s.mode) :
      s.mode ≠ .hw ∧ s'.mode = .hw := by
    rcases t.drain_cases with ⟨hdrain, -⟩ | ⟨hdrain, -⟩
    · rw [hs', hdrain] at mode ⊢
      exact ⟨mode, rfl⟩
    · rw [hs', hdrain] at mode
      exact absurd ht.symm mode
  cases errand with
  | register failures =>
    obtain ⟨-, -, rfl⟩ := ModeSnapshot.enterDeferred?_eq_some_iff.1 change
    exact absurd rfl mode
  | flip failures =>
    obtain ⟨hmode, -, rfl⟩ := ModeSnapshot.flipToSoftware?_eq_some_iff.1 change
    rw [hmode]
    exact .flip failures
  | join failures =>
    obtain ⟨-, -, -, rfl⟩ := ModeSnapshot.enterUndeferred?_eq_some_iff.1 change
    exact absurd rfl mode
  | lock failures =>
    obtain ⟨rfl, rfl⟩ := ModeSnapshot.acquireLock?_eq_some_iff.1 change
    exact .lock failures
  | unlock ending =>
    obtain ⟨rfl, rfl⟩ := Errand.unlock_change?_eq_some_iff.1 change
    exact .unlock ending
  | leave ending =>
    obtain ⟨-, hs'⟩ := ModeSnapshot.leaveUndeferred?_eq_some_iff.1 change
    obtain ⟨hother, hmode⟩ := drained _ hs' rfl
    rw [hmode]
    exact .leave ending hother
  | endEpoch ending =>
    obtain ⟨-, hs'⟩ := ModeSnapshot.leaveDeferred?_eq_some_iff.1 change
    obtain ⟨hother, hmode⟩ := drained _ hs' rfl
    rw [hmode]
    exact .endEpoch ending hother

/-! ## Passages -/

namespace Worker.Turn

variable {b b' : Backend} {s s' : Shared} {d d' : Bool} {p p' : Phase} {q : Request}
  {reply : Reply}

/-- What a turn does to the mode. -/
inductive Passage (s : Shared) (p : Phase) (q : Request) : Shared → Phase → Prop
  /-- Nothing, while nothing is to be shown. -/
  | kept {s' : Shared} {p' : Phase} (mode : s'.mode.mode = s.mode.mode)
      (before : p.unshown? = none) (after : p'.unshown? = none) : Passage s p q s' p'
  /-- Nothing, while the tally is moved. -/
  | flushed (request : q = .flush) : Passage s p q s p
  /-- A change of the mode is shown. -/
  | shown {errand : Errand} {seen next : ModeSnapshot} {p' : Phase}
      (phase : p = .switching errand (.announce seen next)) (request : q = .advance)
      (after : p'.unshown? = none) : Passage s p q s p'
  /-- An errand changes the mode. -/
  | swapped {errand : Errand} {next : ModeSnapshot}
      (phase : p = .switching errand (.swap s.mode next)) (request : q = .advance)
      (change : errand.change? s.mode = some next) (shared : (s.setMode next).mode = next)
      (mode : s.mode.mode ≠ next.mode) :
      Passage s p q (s.setMode next) (.switching errand (.announce s.mode next))

/-- The contents of the word are those that were put there. -/
theorem mode_setMode (s : Shared) {next : ModeSnapshot} (h : next.InRange) :
    (s.setMode next).mode = next := by
  have hread : (s.setMode next).memory.read Runtime.modeAddr = next.encode :=
    Memory.read_write_self _ _ _
  rw [Shared.mode, hread, ModeSnapshot.decode_encode h]

/-- A turn leaves the mode alone or is the swap that changes it. -/
theorem passage (T : Turn b s d p q reply d' p' s' b') (hp : p.Sound d) :
    Passage s p q s' p' := by
  have same (hword : s'.memory.read Runtime.modeAddr = s.memory.read Runtime.modeAddr) :
      s'.mode.mode = s.mode.mode := by
    rw [Shared.mode, hword, Shared.mode]
  -- A swap that succeeds finds the contents that the errand applies to.
  have found {errand : Errand} {seen next : ModeSnapshot}
      (hsound : (SwapStage.swap seen next).Sound errand)
      (hfound : s.memory.read Runtime.modeAddr = seen.encode) :
      s.mode = seen ∧ (s.setMode next).mode = next := by
    refine ⟨?_, mode_setMode s (Errand.inRange hsound.1 hsound.2)⟩
    rw [Shared.mode, hfound, ModeSnapshot.decode_encode hsound.1]
  cases T with
  | flush => exact .flushed rfl
  | execution failures turn past => exact .kept (same (hp.2.turn turn past).2) rfl rfl
  | inapplicable change => exact .kept rfl rfl (unshown?_destination ..)
  | swap hfound mode =>
    obtain ⟨hseen, hnext⟩ := found hp.2 hfound
    refine .kept ?_ rfl (unshown?_destination ..)
    rw [hnext, hseen, mode]
  | swapMode hfound mode =>
    obtain ⟨hseen, hnext⟩ := found hp.2 hfound
    subst hseen
    exact .swapped rfl rfl hp.2.2 hnext mode
  | giveUp lost persistent => exact .kept rfl rfl (unshown?_destination ..)
  | announce seen next => exact .shown rfl rfl (unshown?_destination ..)
  | software place turn => exact .kept (same (hp.2.word turn)) rfl rfl
  | commit place turn =>
    refine .kept (same (hp.2.word turn)) rfl ?_
    cases place <;> rfl
  | endRegion failures r result =>
    refine .kept rfl rfl ?_
    cases result <;> rfl
  | panicSoftware place tx =>
    refine .kept rfl rfl ?_
    cases place <;> rfl
  | _ => exact .kept rfl rfl rfl

/-- What is not yet shown was applied. -/
theorem Passage.applied (P : Passage s p q s' p') (A : p.Applied) : p'.Applied := by
  have nothing {p' : Phase} (h : p'.unshown? = none) : p'.Applied := by
    intro errand seen next hshown
    rw [h] at hshown
    cases hshown
  cases P with
  | kept mode before after => exact nothing after
  | flushed request => exact A
  | shown phase request after => exact nothing after
  | swapped phase request change shared mode =>
    intro errand seen next hshown
    cases hshown
    exact ⟨change, mode⟩

end Worker.Turn

namespace System

variable {ι : Type} [Fintype ι] [DecidableEq ι] {s s' : System ι} {i : ι} {q : Request}
  {reply : Reply} {r : Runtime}

/-- A step passes from mode to mode as the turn of its worker does. -/
theorem passage_of_act (V : s.Valid) (h : s.act i q = some (reply, s')) :
    Worker.Turn.Passage s.runtime.engine.shared (s.worker i).phase q s'.runtime.engine.shared
      (s'.worker i).phase :=
  (turn_of_act h).1.passage (V.sound i)

/-- What is not yet shown was applied. -/
theorem applied_of_reachable (created : r.Created) (h : Reachable r s) (i : ι) :
    (s.worker i).phase.Applied := by
  induction h with
  | refl =>
    intro errand seen next hshown
    cases hshown
  | @tail s s' hs hstep ih =>
    cases hstep with
    | act j q spares acts =>
      by_cases hi : i = j
      · subst hi
        exact (passage_of_act (valid_of_reachable created hs) acts).applied ih
      · rw [(turn_of_act acts).2 i hi]
        exact ih
    | faults f => exact ih

end System

end HybridTM
