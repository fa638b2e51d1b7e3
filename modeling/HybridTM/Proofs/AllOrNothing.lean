import HybridTM.Proofs.Isolation
import HybridTM.Proofs.RegionDiary
import HybridTM.Proofs.Runs

/-!
# All or nothing

Whatever the bodies of executions do, also after an error, and whatever else happens on their
emulator, a region that is doomed stays so, and an execution commits all of its writes at once or
leaves no trace (`RegionDiary.allOrNothing_of_reachable`).

It commits just if its region started, no access failed, the body did not abort the region and
returned a value, and everything logged was current in the end. Otherwise it reports an abort: that
of an access that failed, unless the body aborted the region after it.
-/

set_option autoImplicit false

namespace HybridTM

/-! ## Courses -/

/-- What a body has done in its region, and the abort that dooms the region. -/
inductive BodyRun : List RegionEvent → Option HardwareAbort → Prop
  /-- Nothing. -/
  | entered : BodyRun [.entered] none
  /-- An access of a region that is not doomed. It may fail. -/
  | accessed {notes : List RegionEvent} {x : RegionEvent} (run : BodyRun notes none)
      (access : x.isAccess = true) : BodyRun (notes ++ [x]) x.failure?
  /-- An access of a doomed region. It fails. -/
  | barred {notes : List RegionEvent} {x : RegionEvent} {abort : HardwareAbort}
      (run : BodyRun notes (some abort)) (access : x.isAccess = true)
      (fails : x.failure? = some abort) : BodyRun (notes ++ [x]) (some abort)
  /-- The body aborts the region, doomed or not. -/
  | aborted {notes : List RegionEvent} {doom : Option HardwareAbort} (run : BodyRun notes doom)
      (code : UInt8) : BodyRun (notes ++ [.aborted code]) (some (.explicit code))

/-- The events of an execution that has come to a stage. -/
inductive Course : List RegionEvent → Execution → Prop
  /-- It has not begun. -/
  | starting : Course [] .starting
  /-- A fault kept the region from starting. -/
  | refused (abort : HardwareAbort) : Course [.refused abort] (.done (.error abort))
  /-- The body is running. -/
  | running {notes : List RegionEvent} {r : Region} (run : BodyRun notes r.doomed) :
      Course notes (.running r)
  /-- The body failed. -/
  | failed {notes : List RegionEvent} {doom : Option HardwareAbort} (run : BodyRun notes doom)
      (err : TxError) :
      Course (notes ++ [.returned (.error err)]) (.done (.error (doom.getD err.toAbort)))
  /-- The body returned a value. -/
  | returned {notes : List RegionEvent} {r : Region} (run : BodyRun notes r.doomed) (value : Word) :
      Course (notes ++ [.returned (.ok value)]) (.returned r value)
  /-- The region was doomed. -/
  | doomed {notes : List RegionEvent} {abort : HardwareAbort} (run : BodyRun notes (some abort))
      (value : Word) : Course (notes ++ [.returned (.ok value)]) (.done (.error abort))
  /-- The hook is running. -/
  | hook {notes : List RegionEvent} (run : BodyRun notes none) (name : Hook) (r : Region)
      (value : Word) : Course (notes ++ [.returned (.ok value)]) (.hook name r value)
  /-- The region is about to commit. -/
  | committing {notes : List RegionEvent} (run : BodyRun notes none) (r : Region) (value : Word) :
      Course (notes ++ [.returned (.ok value)]) (.committing r value)
  /-- It could not. -/
  | conflict {notes : List RegionEvent} (run : BodyRun notes none) (value : Word) :
      Course (notes ++ [.returned (.ok value), .judged false]) (.done (.error .conflict))
  /-- It did. -/
  | committed {notes : List RegionEvent} (run : BodyRun notes none) (value : Word) :
      Course (notes ++ [.returned (.ok value), .judged true]) (.done (.ok value))

/-- The steps that an execution itself takes at most until its body runs or it has ended. -/
def Execution.stepsLeft : Execution → Nat
  | .returned _ _ => 3
  | .hook _ _ _ => 2
  | .starting | .committing _ _ => 1
  | .running _ | .done _ => 0

/-! ## What is promised -/

namespace RegionDiary

variable {ι : Type} [DecidableEq ι]

/-- What an execution can do, whatever its body does and whatever the others do. -/
structure AllOrNothing (d : RegionDiary ι) : Prop where
  /-- After an access that failed, or an abort by the body, all accesses fail. -/
  barred : ∀ i before x after, d.notes i = before ++ x :: after → x.doom?.isSome →
    ∀ y ∈ after, y.isAccess = true → y.failure?.isSome
  /-- Nothing more is logged then. -/
  frozen : ∀ i x, x ∈ d.notes i → x.doom?.isSome → ∀ c d', d.call c = some d' → ∀ r r',
    (d.system.execution i).region? = some r → (d'.system.execution i).region? = some r' →
      r'.reads = r.reads ∧ r'.writes = r.writes
  /-- In the end the abort of an access that failed is reported, unless the body aborts the region
  after it; then its last abort is. -/
  reported : ∀ i before x after abort, d.notes i = before ++ x :: after → x.doom? = some abort →
    (∀ code, .aborted code ∉ after) → ∀ result, d.system.execution i = .done result →
      result = .error abort
  /-- An execution commits with a value just if no fault was forced, the body returned the value, no
  access failed, the body did not abort the region, and all that was logged was current. -/
  commits : ∀ i value, d.system.execution i = .done (.ok value) ↔
    (∀ abort, .refused abort ∉ d.notes i) ∧ .returned (.ok value) ∈ d.notes i ∧
      (∀ x ∈ d.notes i, x.doom? = none) ∧ .judged true ∈ d.notes i
  /-- Its body does not run any more once it has returned. -/
  returned : ∀ i result, .returned result ∈ d.notes i → ∀ r, d.system.execution i ≠ .running r
  /-- An execution whose body is not running comes to its end or to its body by steps that are
  always possible. -/
  ends : ∀ i, 0 < (d.system.execution i).stepsLeft → ∃ d', d.call (.advance i) = some d' ∧
    (d'.system.execution i).stepsLeft < (d.system.execution i).stepsLeft
  /-- Nothing happens after the end. -/
  final : ∀ i result c, d.system.execution i = .done result → c.owner? = some i → d.call c = none
  /-- Unless it committed, none of its calls has changed memory, version or number of commits. -/
  unchanged : ∀ i, (∀ value, d.system.execution i ≠ .done (.ok value)) →
    ∀ x ∈ d.changes i, x.2 = x.1
  /-- If it did, its last call has changed memory by what was pending and has counted the commit,
  and it was a publication if anything was pending. -/
  changed : ∀ i value, d.system.execution i = .done (.ok value) → ∃ before x,
    d.changes i = before ++ [x] ∧ (∀ y ∈ before, y.2 = y.1) ∧
      x.2.memory = (pendingWrites (d.notes i)).writeBack x.1.memory ∧
      x.2.committed = x.1.committed.map (· + 1) ∧
      x.2.version = if (pendingWrites (d.notes i)).order = [] then x.1.version
        else x.1.version.map (· + 2)

end RegionDiary

/-! ## Bodies -/

namespace RegionEvent

variable {x : RegionEvent}

theorem doom?_of_isAccess (h : x.isAccess = true) : x.doom? = x.failure? := by
  cases x <;> first | rfl | cases h

end RegionEvent

namespace BodyRun

variable {notes before after : List RegionEvent} {doom : Option HardwareAbort} {x : RegionEvent}

/-- What there is among the events of a body. -/
theorem kind (B : BodyRun notes doom) (hx : x ∈ notes) :
    x = .entered ∨ x.isAccess = true ∨ ∃ code, x = .aborted code := by
  induction B with
  | entered => exact Or.inl (List.mem_singleton.1 hx)
  | accessed run access ih | barred run access fails ih =>
    rcases List.mem_append.1 hx with hx | hx
    · exact ih hx
    · obtain rfl := List.mem_singleton.1 hx
      exact Or.inr (Or.inl access)
  | aborted run code ih =>
    rcases List.mem_append.1 hx with hx | hx
    · exact ih hx
    · exact Or.inr (Or.inr ⟨code, List.mem_singleton.1 hx⟩)

/-- Nothing has doomed a region that is not doomed. -/
theorem sound (B : BodyRun notes doom) (none : doom = none) (hx : x ∈ notes) : x.doom? = .none := by
  induction B with
  | entered =>
    obtain rfl := List.mem_singleton.1 hx
    rfl
  | accessed run access ih =>
    rcases List.mem_append.1 hx with hx | hx
    · exact ih rfl hx
    · obtain rfl := List.mem_singleton.1 hx
      rw [RegionEvent.doom?_of_isAccess access, none]
  | barred | aborted => cases none

/-- After what has doomed the region all accesses fail, and the abort stays unless the body aborts
the region. -/
theorem doomed (B : BodyRun notes doom) {abort : HardwareAbort}
    (h : notes = before ++ x :: after) (hx : x.doom? = some abort) :
    (∀ y ∈ after, y.isAccess = true → y.failure?.isSome) ∧
      ((∀ code, .aborted code ∉ after) → doom = some abort) := by
  induction B generalizing after with
  | entered =>
    have hmem : x ∈ [RegionEvent.entered] := h ▸ List.mem_append_right _ List.mem_cons_self
    obtain rfl := List.mem_singleton.1 hmem
    cases hx
  | accessed run access ih =>
    rcases concat_eq_append_cons h with ⟨rfl, rfl⟩ | ⟨after', rfl, rfl⟩
    · rw [RegionEvent.doom?_of_isAccess access] at hx
      exact ⟨fun _ hy => absurd hy List.not_mem_nil, fun _ => hx⟩
    · -- Nothing before it has doomed the region.
      have := run.sound rfl (List.mem_append_right _ List.mem_cons_self) (x := x)
      rw [this] at hx
      cases hx
  | @barred _ z a run access fails ih =>
    rcases concat_eq_append_cons h with ⟨rfl, rfl⟩ | ⟨after', rfl, hnotes⟩
    · rw [RegionEvent.doom?_of_isAccess access] at hx
      exact ⟨fun _ hy => absurd hy List.not_mem_nil, fun _ => fails.symm.trans hx⟩
    · obtain ⟨hbarred, hstays⟩ := ih hnotes
      refine ⟨fun y hy hacc => ?_, fun quiet => hstays fun code hcode =>
        quiet code (List.mem_append_left _ hcode)⟩
      rcases List.mem_append.1 hy with hy | hy
      · exact hbarred y hy hacc
      · rw [List.mem_singleton.1 hy, fails]
        rfl
  | aborted run code ih =>
    rcases concat_eq_append_cons h with ⟨rfl, rfl⟩ | ⟨after', rfl, hnotes⟩
    · exact ⟨fun _ hy => absurd hy List.not_mem_nil, fun _ => hx⟩
    · refine ⟨fun y hy hacc => ?_, fun quiet => absurd
        (List.mem_append_right _ (List.mem_singleton_self _)) (quiet code)⟩
      rcases List.mem_append.1 hy with hy | hy
      · exact (ih hnotes).1 y hy hacc
      · rw [List.mem_singleton.1 hy] at hacc
        cases hacc

/-- A doomed region was doomed by something in its body. -/
theorem exists_doom (B : BodyRun notes doom) {abort : HardwareAbort} (h : doom = some abort) :
    ∃ x ∈ notes, x.doom? = some abort := by
  cases B with
  | entered => cases h
  | @accessed _ x run access =>
    exact ⟨x, by simp, (RegionEvent.doom?_of_isAccess access).trans h⟩
  | @barred _ x _ run access fails =>
    exact ⟨x, by simp, (RegionEvent.doom?_of_isAccess access).trans (fails.trans h)⟩
  | aborted run code => exact ⟨.aborted code, by simp, h⟩

section

variable {e : Emulator} {m : Memory} {r r' : Region} {a : Addr} {mask : Mask}

/-- A read goes on with what the body has done. -/
theorem read {result : Except HardwareAbort Word} (B : BodyRun notes r.doomed)
    (T : r.ReadTurn e m a mask result r') : BodyRun (notes ++ [.read a mask result]) r'.doomed := by
  cases T with
  | doomed hdoomed =>
    rw [hdoomed] at B ⊢
    exact B.barred rfl rfl
  | buffered sound =>
    rw [sound] at B ⊢
    exact B.accessed rfl
  | full sound | stale sound =>
    rw [sound] at B
    exact B.accessed rfl
  | fetched sound =>
    rw [sound] at B
    show BodyRun _ r.doomed
    rw [sound]
    exact B.accessed rfl

/-- So does a write. -/
theorem write {v : Word} {result : Except HardwareAbort Unit} (B : BodyRun notes r.doomed)
    (T : r.WriteTurn e a v mask result r') :
    BodyRun (notes ++ [.write a v mask result]) r'.doomed := by
  cases T with
  | doomed hdoomed =>
    rw [hdoomed] at B ⊢
    exact B.barred rfl rfl
  | full sound =>
    rw [sound] at B
    exact B.accessed rfl
  | written sound =>
    rw [sound] at B
    show BodyRun _ r.doomed
    rw [sound]
    exact B.accessed rfl

end

end BodyRun

/-! ## Stages -/

namespace Course

variable {notes before after : List RegionEvent} {x : Execution} {y : RegionEvent}

/-- What has doomed a region is an event of its body, and an execution that ends reports it. -/
theorem body (C : Course notes x) : (∀ y ∈ notes, y.doom? = none) ∨
    ∃ body doom tail, BodyRun body doom ∧ notes = body ++ tail ∧
      (∀ y ∈ tail, y.doom? = none ∧ y.isAccess = false) ∧
      ∀ result abort, x = .done result → doom = some abort → result = .error abort := by
  have none (result : Except TxError Word) : ∀ y ∈ [RegionEvent.returned result],
      y.doom? = none ∧ y.isAccess = false := by
    intro y hy
    rw [List.mem_singleton.1 hy]
    exact ⟨rfl, rfl⟩
  have sound {body : List RegionEvent} (run : BodyRun body .none) (value : Word) (current : Bool) :
      ∀ y ∈ body ++ [.returned (.ok value), .judged current], y.doom? = .none := by
    intro y hy
    rcases List.mem_append.1 hy with hy | hy
    · exact run.sound rfl hy
    · rcases List.mem_cons.1 hy with rfl | hy
      · rfl
      · rw [List.mem_singleton.1 hy]
        rfl
  cases C with
  | starting => exact Or.inl fun y hy => absurd hy List.not_mem_nil
  | refused abort => exact Or.inl fun y hy => by rw [List.mem_singleton.1 hy]; rfl
  | running run =>
    exact Or.inr ⟨_, _, [], run, (List.append_nil _).symm, fun y hy => absurd hy List.not_mem_nil,
      nofun⟩
  | @failed _ doom run err =>
    refine Or.inr ⟨_, _, _, run, rfl, none _, ?_⟩
    rintro _ abort ⟨⟩ rfl
    rfl
  | returned run value => exact Or.inr ⟨_, _, _, run, rfl, none _, nofun⟩
  | doomed run value =>
    refine Or.inr ⟨_, _, _, run, rfl, none _, ?_⟩
    rintro _ _ ⟨⟩ ⟨⟩
    rfl
  | hook run | committing run => exact Or.inr ⟨_, _, _, run, rfl, none _, nofun⟩
  | conflict run value => exact Or.inl (sound run value false)
  | committed run value => exact Or.inl (sound run value true)

/-- After what has doomed the region all accesses fail, and its abort is reported unless the body
aborts the region. -/
theorem doomed_of (C : Course notes x) {abort : HardwareAbort}
    (h : notes = before ++ y :: after) (hy : y.doom? = some abort) :
    (∀ z ∈ after, z.isAccess = true → z.failure?.isSome) ∧
      ((∀ code, .aborted code ∉ after) → ∀ result, x = .done result → result = .error abort) := by
  rcases C.body with hsound | ⟨body, doom, tail, run, rfl, htail, hreport⟩
  · have := hsound y (h ▸ List.mem_append_right _ List.mem_cons_self)
    rw [this] at hy
    cases hy
  · -- It is an event of the body.
    have outside (hmem : y ∈ tail) : False := by
      rw [(htail y hmem).1] at hy
      cases hy
    rcases List.append_eq_append_iff.1 h with ⟨as, -, htail'⟩ | ⟨bs, hbody, hrest⟩
    · exact (outside (htail' ▸ List.mem_append_right _ List.mem_cons_self)).elim
    · rcases bs with _ | ⟨b, after'⟩
      · have hmem : y ∈ [] ++ tail := hrest ▸ List.mem_cons_self
        exact (outside hmem).elim
      · obtain ⟨rfl, rfl⟩ := List.cons.inj hrest
        obtain ⟨hbarred, hstays⟩ := run.doomed hbody hy
        refine ⟨fun z hz hacc => ?_, fun quiet result hdone => hreport result abort hdone
          (hstays fun code hcode => quiet code (List.mem_append_left _ hcode))⟩
        rcases List.mem_append.1 hz with hz | hz
        · exact hbarred z hz hacc
        · rw [(htail z hz).2] at hacc
          cases hacc

/-- An execution commits just if everything went well. -/
theorem committed_iff (C : Course notes x) (value : Word) : x = .done (.ok value) ↔
    (∀ abort, .refused abort ∉ notes) ∧ .returned (.ok value) ∈ notes ∧
      (∀ y ∈ notes, y.doom? = none) ∧ .judged true ∈ notes := by
  constructor
  · rintro rfl
    cases C with
    | committed run =>
      refine ⟨fun abort h => ?_, by simp, fun y hy => ?_, by simp⟩
      · rcases List.mem_append.1 h with h | h
        · rcases run.kind h with h | h | ⟨code, h⟩ <;> cases h
        · simp at h
      · rcases List.mem_append.1 hy with hy | hy
        · exact run.sound rfl hy
        · rcases List.mem_cons.1 hy with rfl | hy
          · rfl
          · rw [List.mem_singleton.1 hy]
            rfl
  · rintro ⟨-, hreturned, -, hjudged⟩
    have body {body : List RegionEvent} {doom : Option HardwareAbort} (run : BodyRun body doom)
        {y : RegionEvent} (hy : y ∈ body) : y ≠ .judged true ∧ y ≠ .returned (.ok value) := by
      rcases run.kind hy with rfl | h | ⟨code, rfl⟩
      · exact ⟨nofun, nofun⟩
      · constructor <;> rintro rfl <;> cases h
      · exact ⟨nofun, nofun⟩
    cases C with
    | starting | refused => simp at hjudged
    | running run => exact absurd rfl (body run hjudged).1
    | failed run | returned run | doomed run | hook run | committing run | conflict run =>
      rcases List.mem_append.1 hjudged with h | h
      · exact absurd rfl (body run h).1
      · simp at h
    | committed run value' =>
      rcases List.mem_append.1 hreturned with h | h
      · exact absurd rfl (body run h).2
      · obtain rfl : value = value' := by simpa using h
        rfl

theorem run_of_running (C : Course notes x) {r : Region} (h : x = .running r) :
    BodyRun notes r.doomed := by
  subst h
  cases C with
  | running run => exact run

/-- While the body runs it has not returned. -/
theorem not_running (C : Course notes x) {result : Except TxError Word}
    (h : .returned result ∈ notes) (r : Region) : x ≠ .running r := fun hx => by
  rcases (C.run_of_running hx).kind h with h | h | ⟨code, h⟩ <;> cases h

/-- Every turn goes on with the course. -/
theorem turn {e e' : Emulator} {m m' : Memory} {event : Option RegionEvent} {x' : Execution}
    (C : Course notes x) (T : RegionTurn e m x event x' e' m') :
    Course (notes ++ event.toList) x' := by
  cases T with
  | refused enters =>
    cases C
    exact .refused _
  | @entered r e' enters =>
    cases C
    have hdoomed : r.doomed = none := (Emulator.enter_ok enters).2.2
    exact .running (hdoomed ▸ .entered)
  | read T =>
    cases C with | running run => ?_
    exact .running (run.read T)
  | write T =>
    cases C with | running run => ?_
    exact .running (run.write T)
  | aborted r code =>
    cases C with | running run => ?_
    exact .running (run.aborted code)
  | returned r value =>
    cases C with | running run => ?_
    exact .returned run value
  | failed r err =>
    cases C with | running run => ?_
    exact .failed run err
  | doomed value hdoomed =>
    cases C with | returned run => ?_
    rw [hdoomed] at run
    rw [Option.toList_none, List.append_nil]
    exact .doomed run value
  | hook value name sound =>
    cases C with | returned run => ?_
    rw [sound] at run
    rw [Option.toList_none, List.append_nil]
    exact .hook run name _ value
  | ready value sound =>
    cases C with | returned run => ?_
    rw [sound] at run
    rw [Option.toList_none, List.append_nil]
    exact .committing run _ value
  | resumed name r value =>
    cases C with | hook run => ?_
    rw [Option.toList_none, List.append_nil]
    exact .committing run r value
  | commit value current commits =>
    cases C with | committing run => ?_
    rw [Option.toList_some, List.append_assoc]
    exact .committed run value
  | conflict value stale =>
    cases C with | committing run => ?_
    rw [Option.toList_some, List.append_assoc]
    exact .conflict run value

end Course

/-! ## What executions change -/

theorem WriteLog.StandsFor.isEmpty_iff {log : WriteLog} {M : PendingWrites} (S : log.StandsFor M) :
    log.isEmpty = true ↔ M.order = [] := by
  rw [← S.order, List.map_eq_nil_iff, isEmpty, Array.isEmpty_iff, Array.toList_eq_nil_iff]

/-- What there is to change, of an emulator and memory. -/
def Emulator.snapshot (e : Emulator) (m : Memory) : RegionSnapshot :=
  ⟨m, some e.version, some e.committed⟩

namespace RegionTurn

variable {e e' : Emulator} {m m' : Memory} {x x' : Execution} {event : Option RegionEvent}

/-- Nothing happens after the end. -/
theorem not_done (T : RegionTurn e m x event x' e' m') (result : Except HardwareAbort Word) :
    x ≠ .done result := by
  cases T <;> nofun

/-- Only a commit changes anything. -/
theorem snapshot_of_not_committed (T : RegionTurn e m x event x' e' m')
    (h : ∀ value, x' ≠ .done (.ok value)) : e'.snapshot m' = e.snapshot m := by
  cases T with
  | refused enters | entered enters =>
    obtain ⟨faults, rfl⟩ := Emulator.eq_of_enter enters
    rfl
  | commit value => exact absurd rfl (h value)
  | read | write | aborted | returned | failed | doomed | hook | ready | resumed | conflict => rfl

/-- A commit writes back what is buffered. -/
theorem commit_of_committed {value : Word} (T : RegionTurn e m x event x' e' m')
    (h : x' = .done (.ok value)) : ∃ r, x = .committing r value ∧ event = some (.judged true) ∧
      m' = r.writes.writeBack m ∧ e'.committed = e.committed + 1 ∧
      e'.version = if r.writes.isEmpty then e.version else e.version + 2 := by
  cases T with
  | @commit r value' e' m' current commits =>
    obtain rfl : value' = value := by simpa using h
    obtain ⟨hmemory, rfl⟩ := Emulator.eq_of_commit commits
    exact ⟨r, rfl, rfl, hmemory, rfl, rfl⟩
  | _ => cases h

/-- A region that is doomed logs nothing. -/
theorem logs (T : RegionTurn e m x event x' e' m') {r r' : Region} (hr : x.region? = some r)
    (hr' : x'.region? = some r') (doomed : x = .running r → r.doomed ≠ none) :
    r'.reads = r.reads ∧ r'.writes = r.writes := by
  cases T with
  | refused | entered => cases hr
  | failed | doomed | commit | conflict => cases hr'
  | @read r₀ r₁ a mask result T =>
    obtain rfl := Option.some.inj hr
    obtain rfl := Option.some.inj hr'
    cases T with
    | doomed => exact ⟨rfl, rfl⟩
    | buffered sound | full sound | stale sound | fetched sound => exact absurd sound (doomed rfl)
  | @write r₀ r₁ a v mask result T =>
    obtain rfl := Option.some.inj hr
    obtain rfl := Option.some.inj hr'
    cases T with
    | doomed => exact ⟨rfl, rfl⟩
    | full sound | written sound => exact absurd sound (doomed rfl)
  | aborted | returned | hook | ready | resumed =>
    obtain rfl := Option.some.inj hr
    obtain rfl := Option.some.inj hr'
    exact ⟨rfl, rfl⟩

/-- The steps that an execution itself takes come to an end. -/
theorem stepsLeft (T : RegionTurn e m x event x' e' m') (h : 0 < x.stepsLeft) :
    x'.stepsLeft < x.stepsLeft := by
  cases T with
  | read | write | aborted | returned | failed => cases h
  | refused | entered | doomed | hook | ready | resumed | commit | conflict =>
    simp [Execution.stepsLeft]

end RegionTurn

/-- No step of an execution itself has to wait. -/
theorem Execution.exists_advance {x : Execution} (b : Backend) (m : Memory)
    (h : 0 < x.stepsLeft) : ∃ result, x.advance b m = some result := by
  cases x with
  | running | done => cases h
  | starting => rcases henter : b.enter with ⟨_ | r, b'⟩ <;> simp [advance, henter]
  | returned r value =>
    cases hdoomed : r.doomed <;> cases hhook : b.dueHook <;> simp [advance, hdoomed, hhook]
  | hook name r value => exact ⟨_, rfl⟩
  | committing r value =>
    rcases hcommit : b.commit r m with _ | ⟨b', m'⟩ <;> simp [advance, hcommit]

/-- What is kept of an execution: its events, its calls and its stage. -/
structure Kept (notes : List RegionEvent) (changes : List (RegionSnapshot × RegionSnapshot))
    (x : Execution) : Prop where
  /-- The events are those of its stage. -/
  course : Course notes x
  /-- Its region has buffered what is pending. -/
  pending : ∀ r, x.region? = some r → r.writes.StandsFor (pendingWrites notes)
  /-- Unless it has committed it has changed nothing. -/
  unchanged : (∀ value, x ≠ .done (.ok value)) → ∀ y ∈ changes, y.2 = y.1
  /-- If it has, all at once. -/
  changed : ∀ value, x = .done (.ok value) → ∃ before y, changes = before ++ [y] ∧
    (∀ z ∈ before, z.2 = z.1) ∧ y.2.memory = (pendingWrites notes).writeBack y.1.memory ∧
    y.2.committed = y.1.committed.map (· + 1) ∧
    y.2.version = if (pendingWrites notes).order = [] then y.1.version else y.1.version.map (· + 2)

namespace Kept

variable {notes : List RegionEvent} {changes : List (RegionSnapshot × RegionSnapshot)}
  {x x' : Execution} {e e' : Emulator} {m m' : Memory} {event : Option RegionEvent}

theorem starting : Kept [] [] .starting where
  course := .starting
  pending _ h := by cases h
  unchanged _ _ h := absurd h List.not_mem_nil
  changed _ h := by cases h

/-- What is pending is buffered. -/
theorem pending_turn (K : Kept notes changes x) (T : RegionTurn e m x event x' e' m') {r' : Region}
    (h : x'.region? = some r') : r'.writes.StandsFor (pendingWrites (notes ++ event.toList)) := by
  cases T with
  | entered enters =>
    obtain rfl := Option.some.inj h
    have hwrites := (Emulator.enter_ok enters).2.1
    cases K.course
    rw [hwrites]
    exact .empty
  | @read r r₁ a mask result T =>
    obtain rfl := Option.some.inj h
    rw [Option.toList_some, pendingWrites_concat, T.writes]
    exact K.pending r rfl
  | @write r r₁ a v mask result T =>
    obtain rfl := Option.some.inj h
    rw [Option.toList_some, pendingWrites_concat]
    cases T with
    | doomed | full => exact K.pending r rfl
    | written => exact (K.pending r rfl).insert a v mask
  | aborted r code =>
    obtain rfl := Option.some.inj h
    rw [Option.toList_some, pendingWrites_concat]
    exact K.pending r rfl
  | returned r value =>
    obtain rfl := Option.some.inj h
    rw [Option.toList_some, pendingWrites_concat]
    exact K.pending r rfl
  | hook | ready | resumed =>
    obtain rfl := Option.some.inj h
    rw [Option.toList_none, List.append_nil]
    exact K.pending _ rfl
  | refused | failed | doomed | commit | conflict => cases h

/-- Every turn keeps it. -/
theorem turn (K : Kept notes changes x) (T : RegionTurn e m x event x' e' m') :
    Kept (notes ++ event.toList) (changes ++ [(e.snapshot m, e'.snapshot m')]) x' := by
  have unchanged := K.unchanged fun value => T.not_done (.ok value)
  refine ⟨K.course.turn T, fun r' h => K.pending_turn T h, fun h y hy => ?_, fun value h => ?_⟩
  · rcases List.mem_append.1 hy with hy | hy
    · exact unchanged y hy
    · rw [List.mem_singleton.1 hy]
      exact T.snapshot_of_not_committed h
  · obtain ⟨r, rfl, rfl, hm', hcommitted, hversion⟩ := T.commit_of_committed h
    have S := K.pending r rfl
    have hpending : pendingWrites (notes ++ (some (.judged true)).toList) = pendingWrites notes :=
      pendingWrites_concat notes (.judged true)
    rw [hpending]
    refine ⟨changes, _, rfl, unchanged, hm'.trans (S.writeBack m), congrArg some hcommitted, ?_⟩
    by_cases hempty : r.writes.isEmpty = true
    · rw [if_pos (S.isEmpty_iff.1 hempty)]
      exact congrArg some (hversion.trans (if_pos hempty))
    · rw [if_neg (mt S.isEmpty_iff.2 hempty)]
      exact congrArg some (hversion.trans (if_neg hempty))

end Kept

/-! ## Diaries -/

namespace RegionDiary

variable {ι : Type} [DecidableEq ι] {capacity : Nat} {m₀ : Memory} {d d' : RegionDiary ι}
  {c : RegionCall ι} {i : ι}

/-- What a call does to the execution that it is a call of. -/
theorem turn_of_call {e : Emulator} (emulated : d.system.backend = .emulated e)
    (h : d.call c = some d') (owner : c.owner? = some i) :
    ∃ e', d'.system.backend = .emulated e' ∧
      RegionTurn e d.system.memory (d.system.execution i) (d.system.event? c)
        (d'.system.execution i) e' d'.system.memory ∧
      d'.notes i = d.notes i ++ (d.system.event? c).toList ∧
      d'.changes i =
        d.changes i ++ [(e.snapshot d.system.memory, e'.snapshot d'.system.memory)] := by
  obtain ⟨s', hcall, rfl⟩ := Option.map_eq_some_iff.1 h
  obtain ⟨e', emulated', T⟩ := RegionSystem.turn_of_call emulated hcall owner
  have snapshot {s : RegionSystem ι} {e : Emulator} (h : s.backend = .emulated e) :
      s.snapshot = e.snapshot s.memory := by
    rw [RegionSystem.snapshot, h]
    rfl
  refine ⟨e', emulated', T, if_pos owner, ?_⟩
  rw [← snapshot emulated, ← snapshot emulated']
  exact if_pos owner

/-- A call of another execution leaves it alone. -/
theorem others_of_call (h : d.call c = some d') (owner : c.owner? ≠ some i) :
    d'.system.execution i = d.system.execution i ∧ d'.notes i = d.notes i ∧
      d'.changes i = d.changes i := by
  obtain ⟨s', hcall, rfl⟩ := Option.map_eq_some_iff.1 h
  exact ⟨RegionSystem.execution_of_call hcall owner, if_neg owner, if_neg owner⟩

/-- A diary is kept beside a system. -/
theorem reachable_system (h : Reachable capacity m₀ d) : d.system.Reachable capacity m₀ := by
  induction h with
  | refl => exact .refl
  | tail _ hstep ih =>
    obtain ⟨c, hcall⟩ := hstep
    obtain ⟨s', hsystem, rfl⟩ := Option.map_eq_some_iff.1 hcall
    exact ih.tail ⟨c, hsystem⟩

theorem emulated_of_reachable (h : Reachable capacity m₀ d) :
    ∃ e, d.system.backend = .emulated e := by
  obtain ⟨e, hemulated, -⟩ := (RegionSystem.standing_of_reachable (reachable_system h)).1.emulator
  exact ⟨e, hemulated⟩

theorem kept_of_reachable (h : Reachable capacity m₀ d) (i : ι) :
    Kept (d.notes i) (d.changes i) (d.system.execution i) := by
  induction h with
  | refl => exact .starting
  | tail hreach hstep K =>
    obtain ⟨c, hcall⟩ := hstep
    by_cases owner : c.owner? = some i
    · obtain ⟨e, emulated⟩ := emulated_of_reachable hreach
      obtain ⟨e', -, T, hnotes, hchanges⟩ := turn_of_call emulated hcall owner
      rw [hnotes, hchanges]
      exact K.turn T
    · obtain ⟨hexecution, hnotes, hchanges⟩ := others_of_call hcall owner
      rw [hexecution, hnotes, hchanges]
      exact K

/-- In every reachable state, whatever the bodies and the others have done. -/
theorem allOrNothing_of_reachable (h : Reachable capacity m₀ d) : d.AllOrNothing := by
  have K := kept_of_reachable h
  obtain ⟨e, emulated⟩ := emulated_of_reachable h
  refine ⟨?_, ?_, ?_, fun i value => (K i).course.committed_iff value,
    fun i result hresult r => (K i).course.not_running hresult r, ?_, ?_,
    fun i => (K i).unchanged, fun i => (K i).changed⟩
  · intro i before x after hnotes hx
    obtain ⟨abort, habort⟩ := Option.isSome_iff_exists.1 hx
    exact ((K i).course.doomed_of hnotes habort).1
  · intro i x hx hdoom c d' hcall r r' hr hr'
    by_cases owner : c.owner? = some i
    · obtain ⟨e', -, T, -⟩ := turn_of_call emulated hcall owner
      refine T.logs hr hr' fun hrunning hsound => ?_
      rw [((K i).course.run_of_running hrunning).sound hsound hx] at hdoom
      cases hdoom
    · rw [(others_of_call hcall owner).1, hr] at hr'
      obtain rfl := Option.some.inj hr'
      exact ⟨rfl, rfl⟩
  · intro i before x after abort hnotes hx quiet
    exact ((K i).course.doomed_of hnotes hx).2 quiet
  · intro i hleft
    obtain ⟨result, hadvance⟩ :=
      Execution.exists_advance d.system.backend d.system.memory hleft
    have hcall : ∃ d', d.call (.advance i) = some d' :=
      ⟨_, by rw [call, RegionSystem.call, hadvance]; rfl⟩
    obtain ⟨d', hcall⟩ := hcall
    obtain ⟨e', -, T, -⟩ := turn_of_call emulated hcall rfl
    exact ⟨d', hcall, T.stepsLeft hleft⟩
  · intro i result c hdone owner
    refine Option.eq_none_iff_forall_ne_some.2 fun d' hcall => ?_
    obtain ⟨e', -, T, -⟩ := turn_of_call emulated hcall owner
    exact T.not_done result hdone

/-! ## A run -/

theorem reachable_of_run {calls : List (RegionCall ι)} (h : Reachable capacity m₀ d)
    (hrun : d.run calls = some d') : Reachable capacity m₀ d' := by
  refine h.trans (reflTransGen_of_run (fun _ => rfl) (fun d c calls d' h => ?_) hrun)
  obtain ⟨d₁, hcall, hrest⟩ := Option.bind_eq_some_iff.1 h
  exact ⟨d₁, ⟨c, hcall⟩, hrest⟩

/-- A fault keeps the first region from starting. The second one exceeds its capacity, and its body
goes on. The third one aborts itself after that. What the fourth one has read is overtaken by a
swap, and it returns a value. The fifth one commits. -/
def fiveFates : List (RegionCall Nat) :=
  [.setFaults (·.failNext .conflict 1), .advance 0,
    .advance 1, .read 1 0 fullMask, .write 1 8 1 fullMask, .write 1 16 2 fullMask,
    .write 1 8 3 fullMask, .endBody 1 (.ok 7), .advance 1,
    .advance 2, .write 2 0 1 fullMask, .read 2 8 fullMask, .read 2 16 fullMask, .abort 2 9,
    .write 2 0 1 fullMask, .endBody 2 (.ok 7), .advance 2,
    .advance 3, .read 3 0 fullMask, .exchange 0 0 5, .endBody 3 (.ok 7), .advance 3, .advance 3,
    .advance 4, .write 4 8 6 0xFF, .write 4 16 4 fullMask, .endBody 4 (.ok 7), .advance 4,
    .advance 4]

/-- The result of an execution that has ended. -/
def result? (d : RegionDiary ι) (i : ι) : Option (Except HardwareAbort Word) :=
  match d.system.execution i with
  | .done result => some result
  | _ => none

/-- Only the fifth one commits, and memory has its writes and the swap. -/
theorem allOrNothing_of_five_fates : ∃ d : RegionDiary Nat, Reachable 2 .zero d ∧
    (List.range 5).map d.result? = [some (.error .conflict), some (.error .capacity),
      some (.error (.explicit 9)), some (.error .conflict), some (.ok 7)] ∧
    [0, 8, 16].map d.system.memory.read = [5, 6, 4] ∧ d.AllOrNothing := by
  have facts : ((init 2 .zero).run fiveFates).map (fun d =>
      ((List.range 5).map d.result?, [0, 8, 16].map d.system.memory.read)) =
      some ([some (.error .conflict), some (.error .capacity), some (.error (.explicit 9)),
        some (.error .conflict), some (.ok 7)], [5, 6, 4]) := by
    decide +kernel
  obtain ⟨d, hrun, hd⟩ := Option.map_eq_some_iff.1 facts
  obtain ⟨hresults, hmemory⟩ := Prod.mk.inj hd
  have hreach : Reachable 2 .zero d := reachable_of_run .refl hrun
  exact ⟨d, hreach, hresults, hmemory, allOrNothing_of_reachable hreach⟩

end RegionDiary

end HybridTM
