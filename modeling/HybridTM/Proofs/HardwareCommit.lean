import HybridTM.Proofs.ModeInvariant

/-!
# Commits of hardware regions

A region commits only while the mode word is, bit for bit, the word that it read before anything
else. So the runtime is in hardware mode at that moment: nobody joined an epoch, nobody holds the
global lock, and no software call is under way. A region that comes to its commit with another mode
word aborts and leaves memory alone, and so does a region that was doomed on the way, whatever its
body made of the errors (`System.hardwareSafe_of_reachable`).
-/

set_option autoImplicit false

namespace HybridTM

namespace System

variable {ι : Type}

/-- What holds at the moment a region commits. -/
structure AtHardwareCommit (s : System ι) (region : Region) : Prop where
  /-- The mode word is the word that the region read first. -/
  word : region.firstRead? =
    some ⟨Runtime.modeAddr, s.runtime.memory.read Runtime.modeAddr, fullMask⟩
  /-- The mode is hardware. -/
  mode : s.runtime.mode.mode = .hw
  /-- No transaction has joined an epoch. -/
  undeferred : s.runtime.mode.undeferred = 0
  /-- Nobody has more than a registration. -/
  stake : ∀ j, s.stake j = .none ∨ s.stake j = .registered
  /-- No software call is under way, optimistic, serial or exclusive. -/
  quiet : ∀ j place call, (s.worker j).phase ≠ .software place call

variable [DecidableEq ι]

/-- A worker whose region comes to an end aborts it, and memory stays as it is. -/
def Aborts (s : System ι) (i : ι) (failures : UInt32) : Prop :=
  ∃ s' abort, s.act i .advance = some (.done, s') ∧
    (s'.worker i).phase = .hardware failures (.done (.error abort)) ∧
    s'.runtime.memory = s.runtime.memory

/-- Regions commit in hardware mode only. -/
structure HardwareSafe (s : System ι) : Prop where
  /-- The step with which a region of a worker commits is made in hardware mode. -/
  commit : ∀ i failures failures' x value reply s', (s.worker i).phase = .hardware failures x →
    s.act i .advance = some (reply, s') →
    (s'.worker i).phase = .hardware failures' (.done (.ok value)) →
    ∃ region, x = .committing region value ∧ s.AtHardwareCommit region
  /-- A region that is about to commit read the whole mode word first, in hardware mode. -/
  checked : ∀ i failures region value,
    (s.worker i).phase = .hardware failures (.committing region value) →
    ∃ word, region.firstRead? = some ⟨Runtime.modeAddr, word, fullMask⟩ ∧
      (ModeSnapshot.decode word).mode = .hw
  /-- If the mode word is another one by then, the region aborts. -/
  stale : ∀ i failures region value word,
    (s.worker i).phase = .hardware failures (.committing region value) →
    region.firstRead? = some ⟨Runtime.modeAddr, word, fullMask⟩ →
    s.runtime.memory.read Runtime.modeAddr ≠ word → s.Aborts i failures
  /-- So does a doomed region whose body returned a value all the same. -/
  doomed : ∀ i failures region value abort,
    (s.worker i).phase = .hardware failures (.returned region value) →
    region.doomed = some abort → s.Aborts i failures

/-! ## Proof -/

/-- An execution comes to a value by the commit of its region only. -/
theorem commit_of_done {b b' : Backend} {x x' : Shared} {d d' : Bool} {failures failures' : UInt32}
    {e : Execution} {value : Word} {reply : Reply}
    (T : Worker.Turn b x d (.hardware failures e) .advance reply d'
      (.hardware failures' (.done (.ok value))) x' b') :
    ∃ region m, e = .committing region value ∧ b.commit region x.memory = .ok (b', m) := by
  cases T with
  | execution _ turn past =>
    cases turn with
    | commit _ commits => exact ⟨_, _, rfl, commits⟩

/-- A step of an execution is a step of its worker. -/
theorem act_of_advance {s : System ι} {i : ι} {failures : UInt32} {x x' : Execution}
    {b : Backend} {m : Memory} (hphase : (s.worker i).phase = .hardware failures x)
    (hx : x.advance s.runtime.backend s.runtime.memory = some (x', b, m))
    (past : ∀ r, x' ≠ .running r) :
    s.act i .advance = some (.done, ⟨{ s.runtime.withMemory m with backend := b },
      Function.update s.worker i ((s.worker i).goto (.hardware failures x'))⟩) := by
  have hadvance : (s.worker i).advance s.runtime = some (.ok
      ((s.worker i).goto (.hardware failures x'),
        { s.runtime.withMemory m with backend := b })) := by
    rw [Worker.advance, hphase]
    simp only [Worker.advanceHardware, hx, Option.map_some]
    cases x <;> cases x' <;> first | rfl | exact absurd rfl (past _)
  rw [act, Worker.act, hadvance]
  rfl

theorem aborts_of_advance {s : System ι} {i : ι} {failures : UInt32} {x : Execution}
    {abort : HardwareAbort} (hphase : (s.worker i).phase = .hardware failures x)
    (hx : x.advance s.runtime.backend s.runtime.memory =
      some (.done (.error abort), s.runtime.backend, s.runtime.memory)) : s.Aborts i failures := by
  refine ⟨_, abort, act_of_advance hphase hx (by simp), ?_, rfl⟩
  simp [Worker.goto]

variable [Fintype ι]

omit [DecidableEq ι] in
/-- A region that finds the mode word as it read it finds hardware mode, and everything that comes
with it. -/
theorem Valid.atHardwareCommit {s : System ι} (V : s.Valid) {region : Region} {b' : Backend}
    {m' : Memory} (C : region.Checked)
    (h : s.runtime.backend.commit region s.runtime.memory = .ok (b', m')) :
    s.AtHardwareCommit region := by
  obtain ⟨⟨word, hfirst, hword, hmode⟩, -⟩ := C.commit h
  have hhw : s.runtime.mode.mode = .hw := by rw [Runtime.mode, hword]; exact hmode
  exact ⟨by rw [hfirst, hword], hhw, V.balanced.hardware hhw, V.balanced.stake_of_hw hhw,
    V.not_software_of_hw hhw⟩

theorem Valid.hardwareSafe {s : System ι} (V : s.Valid) : s.HardwareSafe := by
  have checked {i : ι} {failures : UInt32} {x : Execution}
      (hphase : (s.worker i).phase = .hardware failures x) : x.Checked := by
    have hsound := V.sound i
    rw [hphase] at hsound
    exact hsound.2
  refine ⟨?_, ?_, ?_, ?_⟩
  · intro i failures failures' x value reply s' hphase hact hdone
    obtain ⟨T, -⟩ := turn_of_act hact
    rw [hphase, hdone] at T
    obtain ⟨region, m, rfl, commits⟩ := commit_of_done T
    exact ⟨region, rfl, V.atHardwareCommit (checked hphase).1 commits⟩
  · intro i failures region value hphase
    exact (checked hphase).1.first
  · intro i failures region value word hphase hfirst hne
    have hconsistent : region.reads.isConsistent s.runtime.memory = false := by
      rw [← Bool.not_eq_true]
      intro hconsistent
      have hcurrent := ReadLog.isCurrent_of_mem hconsistent (Array.mem_of_getElem? hfirst)
      exact hne (ReadEntry.isCurrent_fullMask_iff.1 hcurrent)
    obtain ⟨abort, habort⟩ := Backend.commit_of_not_consistent (b := s.runtime.backend) hconsistent
    exact aborts_of_advance hphase (by rw [Execution.advance, habort])
  · intro i failures region value abort hphase hdoomed
    exact aborts_of_advance hphase (by rw [Execution.advance, hdoomed])

/-- In every reachable state of any number of workers, regions commit in hardware mode only. -/
theorem hardwareSafe_of_reachable {r : Runtime} (created : r.Created) {s : System ι}
    (h : Reachable r s) : s.HardwareSafe :=
  (valid_of_reachable created h).hardwareSafe

/-- A region commits beside a worker that has registered for an epoch. -/
theorem hardwareSafe_of_registered_neighbour :
    ∃ (backend : Backend) (r : Runtime) (s : System Bool),
      Runtime.create backend {} [5] .empty = .ok r ∧ Reachable r s ∧
        s.runtime.mode = ⟨.hw, 1, 0⟩ ∧
        (s.act false .advance).map (fun x => x.2.runtime.memory.read 8) = some 7 ∧
        s.HardwareSafe := by
  let backend : Backend :=
    .emulated { Emulator.withCapacity 512 with faults := Faults.none.failNext .unsupported 1 }
  let steps : List (Bool × Request) := [(true, .call), (true, .advance), (true, .advance),
    (true, .account 1), (true, .advance), (true, .advance), (false, .call), (false, .advance),
    (false, .advance), (false, .advance), (false, .read 8 fullMask), (false, .write 8 7 fullMask),
    (false, .endBody (.ok 5)), (false, .advance)]
  have facts : ((Runtime.create backend {} [5] .empty).toOption.bind fun r =>
      ((start r : System Bool).run steps).map fun s =>
        (s.runtime.mode, (s.act false .advance).map fun x => x.2.runtime.memory.read 8)) =
      some (⟨.hw, 1, 0⟩, some 7) := by
    decide +kernel
  obtain ⟨r, s, hcreate, hreach, hs⟩ :=
    reachable_of_run (by simp [steps, Request.SparesMode, Runtime.modeAddr]) facts
  obtain ⟨hmode, hcommit⟩ := Prod.mk.inj hs
  exact ⟨backend, r, s, hcreate, hreach, hmode, hcommit,
    hardwareSafe_of_reachable ⟨_, _, _, _, hcreate⟩ hreach⟩

end System

end HybridTM
