import HybridTM.Proofs.PendingWrites
import HybridTM.Proofs.RegionSystem

/-!
# What happens in an execution

A diary is kept beside the executions on one emulator: the events of each execution in order, and
for each of its calls what it found and what it left behind (`RegionDiary`). No call reads it.

A call of an execution is one of the turns of `RegionTurn` (`RegionSystem.turn_of_call`), in which
reads and writes of a region come out as `Region.ReadTurn` and `Region.WriteTurn` list. What a call
does to the system as a whole is one of four changes (`RegionSystem.Change`). Both lists are
complete, so that nothing else has to look into the calls.
-/

set_option autoImplicit false

namespace HybridTM

/-! ## Events -/

/-- What happens in an execution. -/
inductive RegionEvent where
  /-- A fault keeps the region from starting. -/
  | refused (abort : HardwareAbort)
  /-- The region starts. -/
  | entered
  /-- The body reads. -/
  | read (a : Addr) (mask : Mask) (result : Except HardwareAbort Word)
  /-- The body writes. -/
  | write (a : Addr) (v : Word) (mask : Mask) (result : Except HardwareAbort Unit)
  /-- The body aborts the region. -/
  | aborted (code : UInt8)
  /-- The body returns. -/
  | returned (result : Except TxError Word)
  /-- The region is to commit, and all it has logged is current, or not. -/
  | judged (current : Bool)

namespace RegionEvent

/-- The body reads or writes. -/
def isAccess : RegionEvent → Bool
  | .read _ _ _ | .write _ _ _ _ => true
  | _ => false

/-- The abort with which a read or a write fails. -/
def failure? : RegionEvent → Option HardwareAbort
  | .read _ _ (.error abort) | .write _ _ _ (.error abort) => some abort
  | _ => none

/-- The abort that a failed access or the body itself leaves in the region. -/
def doom? : RegionEvent → Option HardwareAbort
  | .aborted code => some (.explicit code)
  | x => x.failure?

/-- What is pending after an event: a write that succeeds is added. -/
def pends (M : PendingWrites) : RegionEvent → PendingWrites
  | .write a v mask (.ok ()) => M.insert a v mask
  | _ => M

end RegionEvent

/-- What is pending after events. -/
def pendingWrites (notes : List RegionEvent) : PendingWrites :=
  notes.foldl RegionEvent.pends .empty

theorem pendingWrites_concat (notes : List RegionEvent) (x : RegionEvent) :
    pendingWrites (notes ++ [x]) = x.pends (pendingWrites notes) := List.foldl_concat ..

/-! ## Diaries -/

/-- What an execution can change. -/
structure RegionSnapshot where
  /-- Memory. -/
  memory : Memory
  /-- The version of the emulator. -/
  version : Option UInt64
  /-- The number of regions committed. -/
  committed : Option UInt64

/-- The execution that a call is a call of. -/
def RegionCall.owner? {ι : Type} : RegionCall ι → Option ι
  | .advance i | .read i _ _ | .write i _ _ _ | .abort i _ | .endBody i _ => some i
  | .exchange _ _ _ | .setFaults _ => none

namespace RegionSystem

variable {ι : Type}

/-- What a call is for the execution that it is a call of. -/
def event? (s : RegionSystem ι) : RegionCall ι → Option RegionEvent
  | .advance i =>
      match s.execution i with
      | .starting =>
          match s.backend.enter.1 with
          | .error abort => some (.refused abort)
          | .ok _ => some .entered
      | .committing r _ => some (.judged (r.reads.isConsistent s.memory))
      | _ => none
  | .read i a mask =>
      (s.execution i).body?.map fun r => .read a mask (s.backend.read r s.memory a mask).1
  | .write i a v mask =>
      (s.execution i).body?.map fun r => .write a v mask (s.backend.write r a v mask).1
  | .abort _ code => some (.aborted code)
  | .endBody _ result => some (.returned result)
  | .exchange _ _ _ | .setFaults _ => none

/-- What there is to change. -/
def snapshot (s : RegionSystem ι) : RegionSnapshot where
  memory := s.memory
  version := s.backend.emulator?.map (·.version)
  committed := s.backend.emulator?.map (·.committed)

end RegionSystem

/-- Executions on one emulator, with a diary. -/
structure RegionDiary (ι : Type) where
  /-- The executions. -/
  system : RegionSystem ι
  /-- The events of each execution, oldest first. -/
  notes : ι → List RegionEvent
  /-- What each of its calls found and left. -/
  changes : ι → List (RegionSnapshot × RegionSnapshot)

namespace RegionDiary

variable {ι : Type}

/-- A diary before any call. -/
def init (capacity : Nat) (m : Memory) : RegionDiary ι :=
  ⟨.init capacity m, fun _ => [], fun _ => []⟩

variable [DecidableEq ι]

/-- The diary after a call. -/
def call (d : RegionDiary ι) (c : RegionCall ι) : Option (RegionDiary ι) :=
  (d.system.call c).map fun s => {
    system := s
    notes := fun i =>
      if c.owner? = some i then d.notes i ++ (d.system.event? c).toList else d.notes i
    changes := fun i =>
      if c.owner? = some i then d.changes i ++ [(d.system.snapshot, s.snapshot)] else d.changes i }

/-- One call is made. -/
def Step (d d' : RegionDiary ι) : Prop := ∃ c, d.call c = some d'

/-- What calls lead to on an emulator with a capacity, from a memory. -/
def Reachable (capacity : Nat) (m : Memory) (d : RegionDiary ι) : Prop :=
  Relation.ReflTransGen Step (init capacity m) d

/-- The diary after calls in the given order, if all of them are possible. -/
def run (d : RegionDiary ι) : List (RegionCall ι) → Option (RegionDiary ι)
  | [] => some d
  | c :: calls => (d.call c).bind fun d' => d'.run calls

end RegionDiary

/-! ## Accesses -/

namespace Region

/-- What a read of a region can do. -/
inductive ReadTurn (e : Emulator) (m : Memory) (r : Region) (a : Addr) (mask : Mask) :
    Except HardwareAbort Word → Region → Prop
  /-- The region is doomed. -/
  | doomed {abort : HardwareAbort} (doomed : r.doomed = some abort) :
      ReadTurn e m r a mask (.error abort) r
  /-- All bits are buffered. -/
  | buffered {bits : Word} (sound : r.doomed = none)
      (lookup : r.writes.lookup a mask = (bits, mask)) :
      ReadTurn e m r a mask (.ok (bits &&& mask)) r
  /-- There is no room to log the read. -/
  | full (sound : r.doomed = none) (uncovered : (r.writes.lookup a mask).2 ≠ mask)
      (full : e.capacity ≤ r.reads.size + r.writes.size) :
      ReadTurn e m r a mask (.error .capacity) (r.doom .capacity)
  /-- What was read before is not current any more. -/
  | stale (sound : r.doomed = none) (uncovered : (r.writes.lookup a mask).2 ≠ mask)
      (room : r.reads.size + r.writes.size < e.capacity) (moved : e.version ≠ r.start)
      (stale : r.reads.isConsistent m = false) :
      ReadTurn e m r a mask (.error .conflict) (r.doom .conflict)
  /-- Bits are taken from memory. -/
  | fetched (sound : r.doomed = none) (uncovered : (r.writes.lookup a mask).2 ≠ mask)
      (room : r.reads.size + r.writes.size < e.capacity) (v : Word) :
      ReadTurn e m r a mask (.ok v) { r with
        start := e.version
        reads := r.reads.record a (m.read a) (mask &&& ~~~(r.writes.lookup a mask).2) }

/-- What a write of a region can do. -/
inductive WriteTurn (e : Emulator) (r : Region) (a : Addr) (v : Word) (mask : Mask) :
    Except HardwareAbort Unit → Region → Prop
  /-- The region is doomed. -/
  | doomed {abort : HardwareAbort} (doomed : r.doomed = some abort) :
      WriteTurn e r a v mask (.error abort) r
  /-- There is no room for another word. -/
  | full (sound : r.doomed = none) (fresh : r.writes.find? a = none)
      (full : e.capacity ≤ r.reads.size + r.writes.size) :
      WriteTurn e r a v mask (.error .capacity) (r.doom .capacity)
  /-- The write is buffered. -/
  | written (sound : r.doomed = none)
      (room : r.writes.find? a = none → r.reads.size + r.writes.size < e.capacity) :
      WriteTurn e r a v mask (.ok ()) { r with writes := r.writes.insert a v mask }

variable {e : Emulator} {m : Memory} {r r' : Region} {a : Addr} {v : Word} {mask : Mask}

/-- Every read is one of its turns. -/
theorem turn_of_read {result : Except HardwareAbort Word} (h : r.read e m a mask = (result, r')) :
    ReadTurn e m r a mask result r' := by
  unfold read at h
  split at h
  · next abort hdoomed =>
    obtain ⟨rfl, rfl⟩ := Prod.mk.inj h
    exact .doomed hdoomed
  · next hsound =>
    rcases hl : r.writes.lookup a mask with ⟨bits, covered⟩
    have hcovered : (r.writes.lookup a mask).2 = covered := by rw [hl]
    rw [hl] at h
    simp only at h
    split at h
    · next hall =>
      obtain ⟨rfl, rfl⟩ := Prod.mk.inj h
      subst hall
      exact .buffered hsound hl
    · next huncovered =>
      rw [← hcovered] at huncovered
      split at h
      · next hfull =>
        obtain ⟨rfl, rfl⟩ := Prod.mk.inj h
        exact .full hsound huncovered (of_decide_eq_true hfull)
      · next hroom =>
        have hroom : r.reads.size + r.writes.size < e.capacity := by
          rw [isFull, decide_eq_true_eq] at hroom
          exact Nat.lt_of_not_le hroom
        split at h
        · next hstale =>
          obtain ⟨rfl, rfl⟩ := Prod.mk.inj h
          unfold revalidate? at hstale
          split at hstale
          · cases hstale
          · next hmoved =>
            split at hstale
            · cases hstale
            · next hinconsistent =>
              exact .stale hsound huncovered hroom hmoved (Bool.not_eq_true _ ▸ hinconsistent)
        · next r₁ hrevalidate =>
          obtain ⟨-, rfl⟩ := revalidate?_eq_some_iff.1 hrevalidate
          obtain ⟨rfl, rfl⟩ := Prod.mk.inj h
          rw [← hcovered]
          exact .fetched hsound huncovered hroom _

/-- Every write is one of its turns. -/
theorem turn_of_write {result : Except HardwareAbort Unit} (h : r.write e a v mask = (result, r')) :
    WriteTurn e r a v mask result r' := by
  unfold write at h
  split at h
  · next abort hdoomed =>
    obtain ⟨rfl, rfl⟩ := Prod.mk.inj h
    exact .doomed hdoomed
  · next hsound =>
    split at h
    · next hfull =>
      obtain ⟨rfl, rfl⟩ := Prod.mk.inj h
      rw [Bool.and_eq_true, Option.isNone_iff_eq_none] at hfull
      exact .full hsound hfull.1 (of_decide_eq_true hfull.2)
    · next hroom =>
      obtain ⟨rfl, rfl⟩ := Prod.mk.inj h
      refine .written hsound fun hfresh => ?_
      rw [hfresh, Option.isNone_none, Bool.true_and, isFull, decide_eq_true_eq] at hroom
      exact Nat.lt_of_not_le hroom

/-- A read leaves the write log alone. -/
theorem ReadTurn.writes {result : Except HardwareAbort Word}
    (T : r.ReadTurn e m a mask result r') : r'.writes = r.writes := by
  cases T <;> rfl

end Region

/-! ## Turns -/

/-- What a call of an execution does to it, to emulator and memory, and what is noted of it. -/
inductive RegionTurn (e : Emulator) (m : Memory) :
    Execution → Option RegionEvent → Execution → Emulator → Memory → Prop
  /-- There is no region. -/
  | refused {abort : HardwareAbort} {e' : Emulator} (enters : e.enter = (.error abort, e')) :
      RegionTurn e m .starting (some (.refused abort)) (.done (.error abort)) e' m
  /-- The region starts. -/
  | entered {r : Region} {e' : Emulator} (enters : e.enter = (.ok r, e')) :
      RegionTurn e m .starting (some .entered) (.running r) e' m
  /-- The body reads. -/
  | read {r r' : Region} {a : Addr} {mask : Mask} {result : Except HardwareAbort Word}
      (turn : r.ReadTurn e m a mask result r') :
      RegionTurn e m (.running r) (some (.read a mask result)) (.running r') e m
  /-- The body writes. -/
  | write {r r' : Region} {a : Addr} {v : Word} {mask : Mask} {result : Except HardwareAbort Unit}
      (turn : r.WriteTurn e a v mask result r') :
      RegionTurn e m (.running r) (some (.write a v mask result)) (.running r') e m
  /-- The body aborts the region. -/
  | aborted (r : Region) (code : UInt8) :
      RegionTurn e m (.running r) (some (.aborted code)) (.running (r.doom (.explicit code))) e m
  /-- The body returns a value. -/
  | returned (r : Region) (value : Word) :
      RegionTurn e m (.running r) (some (.returned (.ok value))) (.returned r value) e m
  /-- The body returns an error. -/
  | failed (r : Region) (err : TxError) :
      RegionTurn e m (.running r) (some (.returned (.error err))) (.done (.error (r.failure err)))
        e m
  /-- A doomed region aborts. -/
  | doomed {r : Region} (value : Word) {abort : HardwareAbort} (doomed : r.doomed = some abort) :
      RegionTurn e m (.returned r value) none (.done (.error abort)) e m
  /-- The hook is called. -/
  | hook {r : Region} (value : Word) (name : Hook) (sound : r.doomed = none) :
      RegionTurn e m (.returned r value) none (.hook name r value) e m
  /-- There is no hook. -/
  | ready {r : Region} (value : Word) (sound : r.doomed = none) :
      RegionTurn e m (.returned r value) none (.committing r value) e m
  /-- The hook returns. -/
  | resumed (name : Hook) (r : Region) (value : Word) :
      RegionTurn e m (.hook name r value) none (.committing r value) e m
  /-- The region commits. -/
  | commit {r : Region} (value : Word) {e' : Emulator} {m' : Memory}
      (current : r.reads.isConsistent m = true) (commits : e.commit r m = .ok (e', m')) :
      RegionTurn e m (.committing r value) (some (.judged true)) (.done (.ok value)) e' m'
  /-- What the region has logged is not current. -/
  | conflict {r : Region} (value : Word) (stale : r.reads.isConsistent m = false) :
      RegionTurn e m (.committing r value) (some (.judged false)) (.done (.error .conflict)) e m

/-- To start a region only counts it and uses up a fault. -/
theorem Emulator.eq_of_enter {e e' : Emulator} {result : Except HardwareAbort Region}
    (h : e.enter = (result, e')) :
    ∃ faults, e' = { e with started := e.started + 1, faults := faults } := by
  rcases hforced : e.faults.takeForced with ⟨_ | abort, faults⟩ <;>
    simp only [enter, hforced] at h <;> exact ⟨faults, (Prod.mk.inj h).2.symm⟩

/-- A region that starts has accessed nothing. -/
theorem Emulator.enter_ok {e e' : Emulator} {r : Region} (h : e.enter = (.ok r, e')) :
    r.reads = .empty ∧ r.writes = .empty ∧ r.doomed = none := by
  have henter : (Backend.emulated e).enter = (.ok r, .emulated e') := by rw [Backend.enter, h]
  obtain ⟨hreads, hwrites, hdoomed, -⟩ := Backend.enter_ok henter
  exact ⟨hreads, hwrites, hdoomed⟩

/-- A commit is counted, and it is a publication if there is something to write. -/
theorem Emulator.eq_of_commit {e e' : Emulator} {r : Region} {m m' : Memory}
    (h : e.commit r m = .ok (e', m')) : m' = r.writes.writeBack m ∧
      e' = { e with
        committed := e.committed + 1
        version := if r.writes.isEmpty then e.version else e.version + 2 } := by
  unfold commit at h
  split at h
  · cases hempty : r.writes.isEmpty with
    | true =>
      obtain ⟨rfl, rfl⟩ : _ ∧ _ := by simpa [hempty] using h
      exact ⟨(WriteLog.writeBack_of_isEmpty hempty m).symm, rfl⟩
    | false =>
      obtain ⟨rfl, rfl⟩ : _ ∧ _ := by simpa [hempty] using h
      exact ⟨rfl, rfl⟩
  · cases h

/-- A commit fails only because something that was logged is not current. -/
theorem Emulator.commit_error {e : Emulator} {r : Region} {m : Memory} {abort : HardwareAbort}
    (h : e.commit r m = .error abort) : r.reads.isConsistent m = false ∧ abort = .conflict := by
  unfold commit at h
  split at h
  · cases h
  · next stale => exact ⟨Bool.not_eq_true _ ▸ stale, (Except.error.inj h).symm⟩

namespace RegionSystem

variable {ι : Type} {s : RegionSystem ι} {i : ι}

/-- An execution takes its own next step. -/
theorem turn_of_advance {e : Emulator} {x : Execution} {b' : Backend} {m' : Memory}
    (emulated : s.backend = .emulated e)
    (h : (s.execution i).advance s.backend s.memory = some (x, b', m')) : ∃ e', b' = .emulated e' ∧
      RegionTurn e s.memory (s.execution i) (s.event? (.advance i)) x e' m' := by
  have T := Execution.turn_of_advance h
  rw [event?]
  generalize s.execution i = x₀, s.memory = m at T
  rw [emulated] at T ⊢
  cases T with
  | refused enters =>
    rcases henter : e.enter with ⟨result, e₁⟩
    simp only [Backend.enter, henter] at enters ⊢
    obtain ⟨rfl, rfl⟩ := Prod.mk.inj enters
    exact ⟨e₁, rfl, .refused henter⟩
  | entered enters =>
    rcases henter : e.enter with ⟨result, e₁⟩
    simp only [Backend.enter, henter] at enters ⊢
    obtain ⟨rfl, rfl⟩ := Prod.mk.inj enters
    exact ⟨e₁, rfl, .entered henter⟩
  | doomed value doomed => exact ⟨e, rfl, .doomed value doomed⟩
  | hook value name sound => exact ⟨e, rfl, .hook value name sound⟩
  | ready value sound => exact ⟨e, rfl, .ready value sound⟩
  | resumed name r value => exact ⟨e, rfl, .resumed name r value⟩
  | @commit r value b' m' commits =>
    have current := (Backend.commit_ok commits).1
    rcases hcommit : e.commit r m with abort | ⟨e₁, m₁⟩
    · simp only [Backend.commit, hcommit] at commits
      cases commits
    · simp only [Backend.commit, hcommit] at commits
      obtain ⟨rfl, rfl⟩ := Prod.mk.inj (Except.ok.inj commits)
      simp only [current]
      exact ⟨e₁, rfl, .commit value current hcommit⟩
  | @conflict r value abort fails =>
    rcases hcommit : e.commit r m' with abort₁ | ⟨e₁, m₁⟩
    · simp only [Backend.commit, hcommit] at fails
      obtain rfl := Except.error.inj fails
      obtain ⟨stale, rfl⟩ := Emulator.commit_error hcommit
      simp only [stale]
      exact ⟨e, rfl, .conflict value stale⟩
    · simp only [Backend.commit, hcommit] at fails
      cases fails

variable [DecidableEq ι] {s' : RegionSystem ι} {c : RegionCall ι} {j : ι}

/-- A call is one of the turns of the execution that it is a call of. -/
theorem turn_of_call {e : Emulator} (emulated : s.backend = .emulated e) (h : s.call c = some s')
    (owner : c.owner? = some i) : ∃ e', s'.backend = .emulated e' ∧
      RegionTurn e s.memory (s.execution i) (s.event? c) (s'.execution i) e' s'.memory := by
  cases c with
  | advance k =>
    obtain rfl := Option.some.inj owner
    obtain ⟨⟨x, b', m'⟩, hadvance, rfl⟩ := Option.map_eq_some_iff.1 h
    simpa [advanced] using turn_of_advance emulated hadvance
  | read k a mask =>
    obtain rfl := Option.some.inj owner
    obtain ⟨r, hbody, rfl⟩ := Option.map_eq_some_iff.1 h
    rcases hread : r.read e s.memory a mask with ⟨result, r'⟩
    have hread' : s.backend.read r s.memory a mask = (result, r') := by
      rw [emulated, Backend.read, hread]
    refine ⟨e, emulated, ?_⟩
    simp only [event?, hbody, Option.map_some, hread', Execution.read, update, Function.update_self]
    rw [Execution.body?_eq_some_iff.1 hbody]
    exact .read (Region.turn_of_read hread)
  | write k a v mask =>
    obtain rfl := Option.some.inj owner
    obtain ⟨r, hbody, h⟩ := Option.map_eq_some_iff.1 h
    rcases hwrite : r.write e a v mask with ⟨result, r'⟩
    have hwrite' : s.backend.write r a v mask = (result, r') := by
      rw [emulated, Backend.write, hwrite]
    have T := Region.turn_of_write hwrite
    simp only [event?, hbody, Option.map_some, hwrite']
    rw [Execution.body?_eq_some_iff.1 hbody]
    rcases result with abort | ⟨⟩ <;> simp only [Execution.write, hwrite', Except.mapError] at h <;>
      obtain rfl := h <;> refine ⟨e, emulated, ?_⟩ <;>
      simp only [update, Function.update_self] <;> exact .write T
  | abort k code =>
    obtain rfl := Option.some.inj owner
    obtain ⟨r, hbody, rfl⟩ := Option.map_eq_some_iff.1 h
    refine ⟨e, emulated, ?_⟩
    simp only [event?, Execution.abort, Region.abort, update, Function.update_self]
    rw [Execution.body?_eq_some_iff.1 hbody]
    exact .aborted r code
  | endBody k result =>
    obtain rfl := Option.some.inj owner
    obtain ⟨r, hbody, rfl⟩ := Option.map_eq_some_iff.1 h
    refine ⟨e, emulated, ?_⟩
    simp only [event?, update, Function.update_self]
    rw [Execution.body?_eq_some_iff.1 hbody]
    cases result with
    | ok value => exact .returned r value
    | error err => exact .failed r err
  | exchange | setFaults => cases owner

/-- What a call does to the system as a whole. -/
inductive Change (s : RegionSystem ι) : RegionCall ι → RegionSystem ι → Prop
  /-- The body of an execution goes on. -/
  | updated {c : RegionCall ι} {i : ι} (owner : c.owner? = some i) (x : Execution)
      (trace : List Access) : Change s c (s.update i x trace)
  /-- An execution takes its own next step. -/
  | advanced (i : ι) (x : Execution) (b : Backend) (m : Memory) :
      Change s (.advance i) (s.advanced i x b m)
  /-- A word is swapped. -/
  | exchange (a : Addr) (current new : Word) {b : Backend} {m : Memory} {seen : Except Word Word}
      (swaps : s.backend.compareExchange s.memory a current new = (seen, b, m)) :
      Change s (.exchange a current new) { s with
        backend := b
        memory := m
        history := s.history.track s.backend b m
        deeds := s.deeds ++ [.exchange a current new seen] }
  /-- Faults are injected. -/
  | setFaults (f : Faults → Faults) :
      Change s (.setFaults f) { s with backend := s.backend.modifyFaults f }

/-- Every call is one of these changes. -/
theorem change_of_call (h : s.call c = some s') : s.Change c s' := by
  cases c with
  | advance i =>
    obtain ⟨⟨x, b', m'⟩, -, rfl⟩ := Option.map_eq_some_iff.1 h
    exact .advanced i x b' m'
  | read | abort | endBody =>
    obtain ⟨r, -, rfl⟩ := Option.map_eq_some_iff.1 h
    exact .updated rfl _ _
  | write i a v mask =>
    obtain ⟨r, -, h⟩ := Option.map_eq_some_iff.1 h
    rcases hwrite : Execution.write r s.backend a v mask with ⟨_ | ⟨⟩, x⟩ <;> rw [hwrite] at h <;>
      obtain rfl := h <;> exact .updated rfl x _
  | exchange a current new =>
    obtain rfl := Option.some.inj h
    exact .exchange a current new rfl
  | setFaults f =>
    obtain rfl := Option.some.inj h
    exact .setFaults f

/-- No other execution notices it. -/
theorem execution_of_call (h : s.call c = some s') (others : c.owner? ≠ some j) :
    s'.execution j = s.execution j := by
  cases change_of_call h with
  | @updated _ i owner x =>
    have hj : j ≠ i := fun hj => others (hj ▸ owner)
    exact Function.update_of_ne hj x s.execution
  | advanced i x =>
    have hj : j ≠ i := fun hj => others (congrArg some hj.symm)
    exact Function.update_of_ne hj x s.execution
  | exchange | setFaults => rfl

/-- Nothing that was published is taken back. -/
theorem count_le_of_call (h : s.call c = some s') : s.history.count ≤ s'.history.count := by
  have track (b b' : Backend) (m : Memory) : s.history.count ≤ (s.history.track b b' m).count := by
    unfold History.track
    split
    · exact Nat.le_refl _
    · exact Nat.le_succ _
  cases change_of_call h with
  | advanced | exchange => exact track ..
  | updated | setFaults => exact Nat.le_refl _

/-- A region begins once. -/
theorem since_of_call (h : s.call c = some s') (begun : s.execution j ≠ .starting) :
    s'.since j = s.since j := by
  cases change_of_call h with
  | advanced i x b m =>
    show Function.update s.since i (s.beganAt i) j = _
    by_cases hj : j = i
    · subst hj
      rw [Function.update_self]
      unfold beganAt
      split
      · next hstarting => exact absurd hstarting begun
      · rfl
    · rw [Function.update_of_ne hj]
  | updated | exchange | setFaults => rfl

end RegionSystem

end HybridTM
