import HybridTM.Proofs.DataEffects

/-!
# Every turn has an effect on the words of data

A turn of a worker that carries the invocation of its body has one of the effects there are, and
the worker carries the invocation, or the one that it began, to where the turn leads. This is so for
the worker's own turns (`Worker.Turn.data_own`) and for those of its body (`Worker.Turn.data_body`).
-/

set_option autoImplicit false

namespace HybridTM

/-! ## Phases without a body -/

/-- A worker does not run, and if it has a software call this is at its beginning. -/
structure Phase.IsIdle (p : Phase) : Prop where
  /-- No body runs. -/
  path : p.path? = none
  /-- There is nothing to carry. -/
  carries : ∀ h c I, p.Carries h c I
  /-- Nobody holds the clock. -/
  role : p.role? ≠ some .serial

theorem Invocation.afterOwn_of_path? {p : Phase} (h : p.path? = none) (I : Invocation)
    (q : Request) (program : Program) : I.afterOwn q program p = I := by
  unfold afterOwn
  split
  · next path hpath =>
    rw [h] at hpath
    cases hpath
  · rfl

namespace Worker

theorem isIdle_destination (clock : Clock) (changed : Bool) (errand : Errand) :
    (destination clock changed errand).IsIdle := by
  cases errand <;> cases changed <;>
    first
      | exact ⟨rfl, fun _ _ _ => trivial, nofun⟩
      | exact ⟨rfl, fun _ _ _ => rfl, nofun⟩

theorem isIdle_epilogue (value : Word) (place : Place) : (epilogue value place).IsIdle := by
  cases place <;> exact ⟨rfl, fun _ _ _ => trivial, nofun⟩

theorem isIdle_unwinding (place : Place) : (unwinding place).IsIdle := by
  cases place <;> exact ⟨rfl, fun _ _ _ => trivial, nofun⟩

/-- The call of a worker on an errand has committed if the errand is part of its ending. -/
theorem settled?_destination (clock : Clock) (changed : Bool) (errand : Errand)
    (stage : SwapStage) : (destination clock changed errand).settled? .advance =
      (Phase.switching errand stage).pending? := by
  cases errand with
  | register failures => cases changed <;> rfl
  | flip failures => rfl
  | join failures => cases changed <;> rfl
  | lock failures => cases changed <;> rfl
  | leave ending => cases ending <;> rfl
  | endEpoch ending => cases ending <;> rfl
  | unlock ending => cases ending <;> rfl

theorem settled?_switching (errand : Errand) (stage stage' : SwapStage) :
    (Phase.switching errand stage').settled? .advance =
      (Phase.switching errand stage).pending? := by
  cases errand with
  | leave ending => cases ending <;> rfl
  | endEpoch ending => cases ending <;> rfl
  | unlock ending => cases ending <;> rfl
  | _ => rfl

theorem settled?_epilogue (value : Word) (place : Place) :
    (epilogue value place).settled? .advance = some value := by
  cases place <;> rfl

theorem settled?_unwinding (place : Place) : (unwinding place).settled? .panic = none := by
  cases place <;> rfl

theorem pending?_unwinding (place : Place) : (unwinding place).pending? = none := by
  cases place <;> rfl

end Worker

/-- Words of data do not change with the mode word. -/
theorem Shared.sameOn_setMode (s : Shared) (next : ModeSnapshot) :
    Memory.SameOn Runtime.IsData (s.setMode next).memory s.memory :=
  .write _ (fun h => h rfl) _

/-- A call that holds the clock, or is to publish, is not alone. -/
theorem Call.Entitled.isShared {place : Place} {call : Call} (E : call.Entitled place)
    (hstage : call.stage ≠ .starting) (hrole : call.tx.role ≠ .exclusive) :
    (Phase.software place call).IsShared :=
  ⟨place, call, rfl, fun hplace => hrole (E.alone hplace hstage)⟩

namespace Worker.Turn

variable {b b' : Backend} {s s' : Shared} {d d' : Bool} {p p' : Phase} {q : Request}
  {reply : Reply} {h : History} {held : Bool} {I : Invocation}

/-- A turn to a phase without a body that leaves words of data and clock alone. -/
theorem Carried.idle (hp : p'.IsIdle) (data : Memory.SameOn Runtime.IsData s'.memory s.memory)
    (clock : s'.clock = s.clock) (settled : p'.settled? q = p.pending?) {I' : Invocation}
    (stays : p'.pending? = none ∨ I' = I) : ∃ h' held', Carried h held s p I q p' s' I' h' held' :=
  ⟨h, held, .still data clock settled, hp.carries _ _ _, fun hr => absurd hr hp.role, stays⟩

/-! ## Software calls -/

/-- What a turn of a software call that goes on does. -/
theorem data_going {place : Place} {call call' : Call} (C : call.Carries h s.clock I)
    (E : call.Entitled place) (S : s.Shows Runtime.IsData h held)
    (T : Call.Turn call (place = .lock) s (.going call') s') (program : Program) :
    ∃ h' held', Carried h held s (.software place call) I .advance (.software place call') s'
      (I.afterOwn .advance program (.software place call')) h' held' := by
  obtain ⟨tx, stage⟩ := call
  have same : Memory.SameOn Runtime.IsData s.memory s.memory := .refl _ _
  cases T with
  | exclusive hstage only =>
    exact ⟨h, held, .still same rfl rfl, .begin (.beginExclusive tx s.clock) rfl program, nofun,
      Or.inl rfl⟩
  | optimistic hstage others =>
    exact ⟨h, held, .still same rfl rfl, .begin (.begin S tx) rfl program, nofun, Or.inl rfl⟩
  | serial hstage others begins =>
    obtain ⟨hfree, rfl, hrole, hactive, A⟩ := Attempt.beginSerial S begins
    have hplace : place ≠ .lock := of_decide_eq_false others
    exact ⟨h, true, .take ⟨place, _, rfl, hplace⟩ hfree rfl, .begin A hactive program,
      fun _ => Or.inr hfree, Or.inl rfl⟩
  | failed hstage fails =>
    -- A commit that fails leaves the attempt as it is.
    obtain rfl : stage = _ := hstage
    obtain ⟨C, -⟩ := C
    obtain ⟨since, k, A⟩ := C.attempt
    rcases A.commit S fails with ⟨e, he, rfl, hrole, hactive, A'⟩ | ⟨hresult, -⟩ |
      ⟨kind, n, hresult, -⟩ | ⟨hresult, -⟩
    · refine ⟨h, held, .still same rfl rfl, ?_, fun hr => Or.inl ?_, Or.inl rfl⟩
      · have hpath := C.path
        have hunfailing := C.unfailing
        rw [← hrole] at hpath hunfailing
        exact ⟨hpath, C.reaches, hactive.trans C.active, ⟨since, k, A'⟩, hunfailing⟩
      · exact (congrArg some hrole.symm).trans hr
    · cases hresult
    · cases hresult
    · cases hresult
  | rollback hstage =>
    obtain rfl : stage = _ := hstage
    have C : tx.Carries h s.clock I := C
    have hrolled : Call.rolledBack tx s.clock = { tx.finish with lockAttempts := 0 } := by
      rw [Call.rolledBack, Transaction.rollback, if_pos C.active]
      rfl
    have hclock : (tx.rollback s.clock).2 = tx.released s.clock := by
      rw [Transaction.rollback, if_pos C.active]
    rw [hrolled, hclock]
    -- Only a serial attempt has something to give back.
    rcases C.released with ⟨hrole, hreleased⟩ | ⟨hrole, hreleased⟩ <;> rw [hreleased]
    · exact ⟨h, held, .still same rfl rfl, rfl, nofun, Or.inl rfl⟩
    · have hshared := E.isShared (by simp) (by rw [hrole]; decide)
      exact ⟨_, _, .release hshared (congrArg some hrole) rfl, rfl, nofun, Or.inl rfl⟩

/-- What the commit of a software call does. -/
theorem data_commit {place : Place} {call : Call} {value : Word} (C : call.Carries h s.clock I)
    (E : call.Entitled place) (S : s.Shows Runtime.IsData h held)
    (T : Call.Turn call (place = .lock) s (.committed value) s') :
    ∃ h' held', Carried h held s (.software place call) I .advance (epilogue value place) s' I
      h' held' := by
  obtain ⟨tx, stage⟩ := call
  have idle := isIdle_epilogue value place
  have settled := settled?_epilogue value place
  cases T with
  | commit hstage commits =>
    obtain rfl : stage = _ := hstage
    obtain ⟨C, hrest⟩ := C
    obtain ⟨since, k, A⟩ := C.attempt
    rcases A.commit S commits with ⟨e, hresult, -⟩ | ⟨-, rfl, hreads, -, rfl⟩ |
      ⟨kind, n, -, hkind, hlast, rfl, rfl⟩ | ⟨-, hrole, hlast, rfl, rfl⟩
    · cases hresult
    · -- A commit without a write has its place where the attempt stands.
      exact ⟨h, held, .commitAt A.le_count (C.explained hrest A.agrees) hreads rfl settled,
        idle.carries _ _ _, fun hr => absurd hr idle.role, Or.inr rfl⟩
    · -- A writer finds the last memory and publishes.
      have hwriter : tx.role ≠ .exclusive ∧ (held = false ∨ tx.role = .serial) := by
        rcases hkind with ⟨-, hrole, hheld⟩ | ⟨-, hrole⟩ <;> rw [hrole]
        · exact ⟨by decide, Or.inl hheld⟩
        · exact ⟨by decide, Or.inr rfl⟩
      have hshared := E.isShared (by simp) hwriter.1
      have hfree : held = false ∨ (Phase.software place ⟨tx, .committing value⟩).role? =
          some .serial := hwriter.2.imp_right (congrArg some)
      exact ⟨_, _, .publish hshared hfree (C.explained hrest hlast) rfl settled,
        idle.carries _ _ _, fun hr => absurd hr idle.role, Or.inr rfl⟩
    · -- An exclusive attempt has the global lock.
      have hplace : place = .lock := by
        by_contra hne
        exact E.shared hne hrole
      have halone : Alone s (.software place ⟨tx, .committing value⟩) :=
        Or.inr ⟨_, by rw [hplace]⟩
      exact ⟨_, _, .amend halone (C.explained hrest hlast) rfl settled, idle.carries _ _ _,
        fun hr => absurd hr idle.role, Or.inr rfl⟩

/-! ## Executions -/

/-- A turn of a hardware execution before its commit leaves words of data and clock alone. -/
theorem Carried.hardware {failures : UInt32} {x x' : Execution} (C : x'.Carries I)
    (settled : (Phase.hardware failures x').settled? .advance =
      (Phase.hardware failures x).pending?) :
    ∃ h' held', Carried h held s (.hardware failures x) I .advance (.hardware failures x') s I
      h' held' := by
  refine ⟨h, held, .still (.refl _ _) rfl settled, C, ?_, Or.inr rfl⟩
  intro hrole
  cases hrole

/-- What a turn of a hardware execution past its beginning does. -/
theorem data_execution {failures : UInt32} {x x' : Execution} {m : Memory} (C : x.Carries I)
    (K : x.Checked) (S : s.Shows Runtime.IsData h held)
    (T : Execution.Turn b s.memory x x' b' m) (past : ∀ r, x' ≠ .running r) :
    ∃ h' held', Carried h held s (.hardware failures x) I .advance (.hardware failures x')
      { s with memory := m } I h' held' := by
  cases T with
  | refused enters => exact Carried.hardware trivial rfl
  | entered enters => exact absurd rfl (past _)
  | doomed value doomed => exact Carried.hardware trivial rfl
  | hook value name sound => exact Carried.hardware C rfl
  | ready value sound => exact Carried.hardware C rfl
  | resumed name r value => exact Carried.hardware C rfl
  | @commit r value b' m' commits =>
    obtain ⟨K, hdoomed⟩ := K
    obtain ⟨C, hrest⟩ := C hdoomed
    obtain ⟨explained, rfl⟩ := C.commit commits hrest
    -- The region finds the mode word as it read it.
    obtain ⟨⟨word, -, hword, hmode⟩, -⟩ := K.commit commits
    have halone : Alone s (.hardware failures (.committing r value)) := by
      refine Or.inl ?_
      rw [Shared.mode, hword]
      exact hmode
    have hlast : I.Explained value h.last :=
      { explained with agrees := (agrees_congr explained.within S.memory).1 explained.agrees }
    refine ⟨_, _, .amend halone hlast rfl rfl, trivial, ?_, Or.inr rfl⟩
    intro hrole
    cases hrole
  | conflict value fails => exact Carried.hardware trivial rfl

/-! ## Turns of workers -/

/-- What a turn of a worker's own does. -/
theorem data_own (T : Turn b s d p q reply d' p' s' b') (hp : p.Sound d)
    (C : p.Carries h s.clock I) (S : s.Shows Runtime.IsData h held) (hq : q.isOwn = true)
    (program : Program) :
    ∃ h' held', Carried h held s p I q p' s' (I.afterOwn q program p') h' held' := by
  have same : Memory.SameOn Runtime.IsData s.memory s.memory := .refl _ _
  have quiet : Phase.IsIdle p' → p'.settled? q = p.pending? → s' = s →
      ∃ h' held', Carried h held s p I q p' s' (I.afterOwn q program p') h' held' := by
    rintro hidle hsettled rfl
    exact Carried.idle hidle same rfl hsettled
      (Or.inr (Invocation.afterOwn_of_path? hidle.path _ _ _))
  cases T with
  | call alive => exact quiet ⟨rfl, fun _ _ _ => trivial, nofun⟩ rfl rfl
  | retire outside => exact quiet ⟨rfl, fun _ _ _ => trivial, nofun⟩ rfl rfl
  | retireEpoch inside => exact quiet ⟨rfl, fun _ _ _ => trivial, nofun⟩ rfl rfl
  | flush => exact ⟨h, held, .still same rfl rfl, C, Or.inl, Or.inr rfl⟩
  | toEpoch failures inside => exact quiet ⟨rfl, fun _ _ _ => rfl, nofun⟩ rfl rfl
  | toJoin failures outside change => exact quiet ⟨rfl, fun _ _ _ => trivial, nofun⟩ rfl rfl
  | toLock failures outside => exact quiet ⟨rfl, fun _ _ _ => trivial, nofun⟩ rfl rfl
  | toHardware failures outside => exact quiet ⟨rfl, fun _ _ _ => trivial, nofun⟩ rfl rfl
  | enter failures enters => exact quiet ⟨rfl, fun _ _ _ => trivial, nofun⟩ rfl rfl
  | check failures reads hardware =>
    -- Here the body of a region begins.
    obtain ⟨-, hreads, hwrites, -⟩ := hp
    exact ⟨h, held, .still same rfl rfl, fun _ => .of_check hreads hwrites reads program, nofun,
      Or.inl rfl⟩
  | refuse failures r abort => exact quiet ⟨rfl, fun _ _ _ => trivial, nofun⟩ rfl rfl
  | execution failures turn past =>
    rw [Invocation.afterOwn_of_path? (by cases turn <;> first | rfl | exact absurd rfl (past _))]
    exact data_execution C hp.2 S turn past
  | settle failures value ticks => exact quiet ⟨rfl, fun _ _ _ => trivial, nofun⟩ rfl rfl
  | retry failures failures' abort ticks =>
    exact quiet ⟨rfl, fun _ _ _ => trivial, nofun⟩ rfl rfl
  | toSoftware failures failures' abort ticks =>
    exact quiet ⟨rfl, fun _ _ _ => trivial, nofun⟩ rfl rfl
  | @load errand next change =>
    exact quiet ⟨rfl, fun _ _ _ => trivial, nofun⟩ (settled?_switching errand _ _) rfl
  | inapplicable change => exact quiet (isIdle_destination _ _ _) (settled?_destination _ _ _ _) rfl
  | @swap errand seen next found mode =>
    have idle := isIdle_destination s.clock true errand
    exact Carried.idle idle (s.sameOn_setMode next) rfl (settled?_destination _ _ _ _)
      (Or.inr (Invocation.afterOwn_of_path? idle.path _ _ _))
  | @swapMode errand seen next found mode =>
    have idle : (Phase.switching errand (.announce seen next)).IsIdle :=
      ⟨rfl, fun _ _ _ => trivial, nofun⟩
    exact Carried.idle idle (s.sameOn_setMode next) rfl (settled?_switching errand _ _) (Or.inr rfl)
  | @reload errand seen next lost persistent =>
    exact quiet ⟨rfl, fun _ _ _ => trivial, nofun⟩ (settled?_switching errand _ _) rfl
  | giveUp lost persistent =>
    exact quiet (isIdle_destination _ _ _) (settled?_destination _ _ _ _) rfl
  | announce seen next => exact quiet (isIdle_destination _ _ _) (settled?_destination _ _ _ _) rfl
  | software place turn => exact data_going C hp.2 S turn program
  | commit place turn =>
    rw [Invocation.afterOwn_of_path? (isIdle_epilogue _ place).path]
    exact data_commit C hp.2 S turn
  | stay value ticks => exact quiet ⟨rfl, fun _ _ _ => trivial, nofun⟩ rfl rfl
  | goBack value ticks => exact quiet ⟨rfl, fun _ _ _ => trivial, nofun⟩ rfl rfl
  | _ => cases hq

theorem isOwn_request (p : Program) : p.request.isOwn = false := by
  cases p <;> rfl

/-- What a turn of its body does. -/
theorem data_body (T : Turn b s d p q reply d' p' s' b') (hp : p.Sound d)
    (supported : b.isSupported = true) (C : p.Carries h s.clock I)
    (S : s.Shows Runtime.IsData h held) (hq : I.rest.request = q) :
    ∃ h' held', Carried h held s p I q p' s' (I.resume reply) h' held' := by
  have same : Memory.SameOn Runtime.IsData s.memory s.memory := .refl _ _
  have hbody : q.isOwn = false := by
    rw [← hq]
    exact isOwn_request I.rest
  cases T with
  | readRegion failures reads =>
    obtain ⟨i, next, hrest, rfl⟩ := Program.request_eq_read hq
    exact ⟨h, held, .still same rfl rfl, Execution.Carries.read C supported hrest reads, nofun,
      Or.inl rfl⟩
  | readSoftware place reads =>
    obtain ⟨i, next, hrest, rfl⟩ := Program.request_eq_read hq
    obtain ⟨hrole, -⟩ := Transaction.kept_read reads
    have C' := Transaction.Carries.read C S hrest reads
    exact ⟨h, held, .still same rfl rfl, C', fun hr => Or.inl ((congrArg some hrole).symm.trans hr),
      Or.inl rfl⟩
  | writeRegion failures writes =>
    obtain ⟨i, next, hrest, rfl⟩ := Program.request_eq_write hq
    exact ⟨h, held, .still same rfl rfl, Execution.Carries.write C supported hrest writes, nofun,
      Or.inl rfl⟩
  | writeSoftware place tx a v mask =>
    obtain ⟨i, next, hrest, rfl⟩ := Program.request_eq_write hq
    refine ⟨h, held, .still same rfl rfl, Transaction.Carries.write C hrest, fun hr => Or.inl ?_,
      Or.inl rfl⟩
    rcases Transaction.role_write tx (Runtime.wordAddr i) v mask with ⟨hrole, -⟩ | ⟨hrole, -⟩
    · rw [Phase.role?, hrole] at hr
      cases hr
    · exact (congrArg some hrole).symm.trans hr
  | abort failures r code =>
    -- A region that is doomed carries nothing.
    refine ⟨h, held, .still same rfl rfl, ?_, nofun, Or.inl rfl⟩
    intro hdoomed
    cases hdoomed
  | endRegion failures r result =>
    rw [Invocation.resume_done hq]
    cases result with
    | ok value =>
      have hrest := Program.request_eq_endBody hq
      exact ⟨h, held, .still same rfl rfl, fun hdoomed => ⟨C hdoomed, hrest⟩, nofun, Or.inl rfl⟩
    | error err => exact ⟨h, held, .still same rfl rfl, trivial, nofun, Or.inl rfl⟩
  | endSoftware place tx result =>
    rw [Invocation.resume_done hq]
    cases result with
    | ok value =>
      have hrest := Program.request_eq_endBody hq
      exact ⟨h, held, .still same rfl rfl, ⟨C, hrest⟩, Or.inl, Or.inl rfl⟩
    | error err => exact ⟨h, held, .still same rfl rfl, C, Or.inl, Or.inl rfl⟩
  | panicRegion failures r => exact ⟨h, held, .still same rfl rfl, trivial, nofun, Or.inl rfl⟩
  | panicSoftware place tx =>
    have idle := isIdle_unwinding place
    rcases Transaction.Carries.released C with ⟨hrole, hreleased⟩ | ⟨hrole, hreleased⟩ <;>
      rw [hreleased]
    · exact Carried.idle idle same rfl (settled?_unwinding place)
        (Or.inl (pending?_unwinding place))
    · have hshared := hp.2.isShared (by simp) (by rw [hrole]; decide)
      exact ⟨_, _, .release hshared (congrArg some hrole) (settled?_unwinding place),
        idle.carries _ _ _, fun hr => absurd hr idle.role, Or.inl (pending?_unwinding place)⟩
  | _ => cases hbody

end Worker.Turn

end HybridTM
