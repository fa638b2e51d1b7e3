import HybridTM.Proofs.RegionStanding
import HybridTM.Proofs.Runs
import HybridTM.Proofs.Turns
import Mathlib.Logic.Function.Basic

/-!
# Regions on one emulator

Any number of executions run their bodies as regions of one emulator, in any order and beside
compare-and-swaps from outside. The system keeps the history of the memories that were published,
what each body did, and a record of the commits and swaps; none of this is read by a call.

Every call keeps every region standing somewhere in the history (`Standing.step`), and it does one
of three things to memory and record (`Effect`).
-/

set_option autoImplicit false

namespace HybridTM

/-- The region of an execution that has begun and not ended. -/
def Execution.region? : Execution → Option Region
  | .running r | .returned r _ | .hook _ r _ | .committing r _ => some r
  | .starting | .done _ => none

/-- The region of an execution whose body is running. -/
def Execution.body? : Execution → Option Region
  | .running r => some r
  | _ => none

theorem Execution.body?_eq_some_iff {x : Execution} {r : Region} :
    x.body? = some r ↔ x = .running r := by
  cases x <;> simp [body?]

/-- What changes memory: the commit of a region after a run of accesses, or a compare-and-swap with
the word that it found. -/
inductive Deed (ι : Type) where
  /-- A commit. -/
  | commit (i : ι) (trace : List Access)
  /-- A compare-and-swap. -/
  | exchange (a : Addr) (current new : Word) (seen : Except Word Word)

namespace Deed

variable {ι : Type}

/-- The region that committed. -/
def region? : Deed ι → Option ι
  | .commit i _ => some i
  | .exchange _ _ _ _ => none

theorem region?_eq_some_iff {d : Deed ι} {i : ι} :
    d.region? = some i ↔ ∃ t, d = .commit i t := by
  cases d with
  | commit j t => simp [region?]
  | exchange a current new seen => simp [region?]

/-- Done alone on a memory, a deed finds what it found: the reads of a region give the same results,
and a swap finds the same word. -/
def Holds : Deed ι → Memory → Prop
  | .commit _ t, m => Agrees t m
  | .exchange a current new seen, m => (m.compareExchange a current new).1 = seen

/-- The memory after a deed. -/
def apply : Deed ι → Memory → Memory
  | .commit _ t, m => after t m
  | .exchange a current new _, m => (m.compareExchange a current new).2

/-- Deeds done one after the other lead from one memory to another, and each finds what it found. -/
def SerialFrom : Memory → List (Deed ι) → Memory → Prop
  | m, [], m' => m = m'
  | m, d :: ds, m' => d.Holds m ∧ SerialFrom (d.apply m) ds m'

end Deed

/-- Executions on one emulator, with a record of what they did. -/
structure RegionSystem (ι : Type) where
  /-- The emulator. -/
  backend : Backend
  /-- Memory. -/
  memory : Memory
  /-- The executions. -/
  execution : ι → Execution
  /-- The memories published so far. -/
  history : History
  /-- The number of publications when a region began. -/
  since : ι → Nat
  /-- The accesses of a body, without the writes that failed. -/
  trace : ι → List Access
  /-- The commits and swaps, oldest first. -/
  deeds : List (Deed ι)

/-- A call on an emulator. -/
inductive RegionCall (ι : Type) where
  /-- An execution takes its own next step: it begins, calls the hook, commits or aborts. -/
  | advance (i : ι)
  /-- A body reads. -/
  | read (i : ι) (a : Addr) (mask : Mask)
  /-- A body writes. -/
  | write (i : ι) (a : Addr) (v : Word) (mask : Mask)
  /-- A body aborts its region. -/
  | abort (i : ι) (code : UInt8)
  /-- A body returns. -/
  | endBody (i : ι) (result : Except TxError Word)
  /-- A compare-and-swap from outside. -/
  | exchange (a : Addr) (current new : Word)
  /-- Other faults are injected. -/
  | setFaults (f : Faults → Faults)

namespace RegionSystem

variable {ι : Type}

/-- The system before any call. -/
def init (capacity : Nat) (m : Memory) : RegionSystem ι where
  backend := .emulated (.withCapacity capacity)
  memory := m
  execution _ := .starting
  history := .start m
  since _ := 0
  trace _ := []
  deeds := []

/-- The number of publications when the region of an execution began, if its next step is taken
now. -/
def beganAt (s : RegionSystem ι) (i : ι) : Nat :=
  match s.execution i with
  | .starting => s.history.count
  | _ => s.since i

/-- The record after an execution came to a stage: a region that committed is entered. -/
def recorded (s : RegionSystem ι) (i : ι) : Execution → List (Deed ι)
  | .done (.ok _) => s.deeds ++ [.commit i (s.trace i)]
  | _ => s.deeds

/-- A region committed after a run of accesses. -/
def Committed (s : RegionSystem ι) (i : ι) (t : List Access) : Prop :=
  (∃ value, s.execution i = .done (.ok value)) ∧ s.trace i = t

/-! ## Calls -/

variable [DecidableEq ι]

/-- The system after one body went on. -/
def update (s : RegionSystem ι) (i : ι) (x : Execution) (trace : List Access) : RegionSystem ι :=
  { s with
    execution := Function.update s.execution i x
    trace := Function.update s.trace i trace }

/-- The system after an execution took its own next step. -/
def advanced (s : RegionSystem ι) (i : ι) (x : Execution) (backend : Backend) (memory : Memory) :
    RegionSystem ι where
  backend := backend
  memory := memory
  execution := Function.update s.execution i x
  history := s.history.track s.backend backend memory
  since := Function.update s.since i (s.beganAt i)
  trace := s.trace
  deeds := s.recorded i x

/-- The system after a call, which is not possible for an execution that stands elsewhere. -/
def call (s : RegionSystem ι) : RegionCall ι → Option (RegionSystem ι)
  | .advance i =>
      ((s.execution i).advance s.backend s.memory).map fun (x, backend, memory) =>
        s.advanced i x backend memory
  | .read i a mask =>
      (s.execution i).body?.map fun r =>
        let (result, x) := Execution.read r s.backend s.memory a mask
        s.update i x (s.trace i ++ [.read a mask result])
  | .write i a v mask =>
      (s.execution i).body?.map fun r =>
        match Execution.write r s.backend a v mask with
        | (.ok (), x) => s.update i x (s.trace i ++ [.write a v mask])
        | (.error _, x) => s.update i x (s.trace i)
  | .abort i code =>
      (s.execution i).body?.map fun r => s.update i (Execution.abort r code).2 (s.trace i)
  | .endBody i result =>
      (s.execution i).body?.map fun r => s.update i (.endBody r result) (s.trace i)
  | .exchange a current new =>
      let (seen, backend, memory) := s.backend.compareExchange s.memory a current new
      some
        { s with
          backend, memory
          history := s.history.track s.backend backend memory
          deeds := s.deeds ++ [.exchange a current new seen] }
  | .setFaults f => some { s with backend := s.backend.modifyFaults f }

/-- One call is made. -/
def Step (s s' : RegionSystem ι) : Prop := ∃ c, s.call c = some s'

/-- The states that calls lead to on an emulator with a capacity, from a memory. -/
def Reachable (capacity : Nat) (m : Memory) (s : RegionSystem ι) : Prop :=
  Relation.ReflTransGen Step (init capacity m) s

/-- The state after calls in the given order, if all of them are possible. -/
def run (s : RegionSystem ι) : List (RegionCall ι) → Option (RegionSystem ι)
  | [] => some s
  | c :: calls => (s.call c).bind fun s' => s'.run calls

end RegionSystem

/-! ## Every call keeps every region -/

namespace RegionSystem

variable {ι : Type}

/-- Every region stands somewhere in the history, which begins with a memory, and of which memory
and version show the end. -/
structure Standing (m₀ : Memory) (s : RegionSystem ι) : Prop where
  /-- The history begins with the memory. -/
  first : s.history.memory 0 = m₀
  /-- The version counts the publications. -/
  emulator : ∃ e, s.backend = .emulated e ∧ e.version = stamp s.history.count
  /-- Memory is the last one of the history. -/
  memory : s.memory = s.history.last
  /-- A region stands with what its body did since it began. -/
  region : ∀ i r, (s.execution i).region? = some r → r.Stands s.history (s.since i) (s.trace i)
  /-- Before its region a body did nothing. -/
  fresh : ∀ i, s.execution i = .starting → s.trace i = []

theorem Standing.init (capacity : Nat) (m : Memory) :
    Standing m (init capacity m : RegionSystem ι) where
  first := rfl
  emulator := ⟨_, rfl, rfl⟩
  memory := rfl
  region _ _ hr := by cases hr
  fresh _ _ := rfl

/-- What a call does to memory and record. -/
inductive Effect (s s' : RegionSystem ι) : Prop
  /-- Nothing. -/
  | quiet (memory : s'.memory = s.memory) (deeds : s'.deeds = s.deeds)
      (committed : ∀ i t, s'.Committed i t ↔ s.Committed i t)
  /-- A region commits. -/
  | commit (i : ι) (r : Region) (value : Word) (stage : s.execution i = .committing r value)
      (current : r.reads.isConsistent s.memory = true) (agrees : Agrees (s.trace i) s.memory)
      (memory : s'.memory = after (s.trace i) s.memory)
      (deeds : s'.deeds = s.deeds ++ [.commit i (s.trace i)])
      (committed : ∀ j t, s'.Committed j t ↔ s.Committed j t ∨ (j = i ∧ t = s.trace i))
  /-- A compare-and-swap happens. -/
  | exchange (a : Addr) (current new : Word) (seen : Except Word Word)
      (found : (s.memory.compareExchange a current new).1 = seen)
      (memory : s'.memory = (s.memory.compareExchange a current new).2)
      (deeds : s'.deeds = s.deeds ++ [.exchange a current new seen])
      (committed : ∀ i t, s'.Committed i t ↔ s.Committed i t)

variable {m₀ : Memory} {s s' : RegionSystem ι} {i : ι}

theorem beganAt_of_starting (h : s.execution i = .starting) : s.beganAt i = s.history.count := by
  rw [beganAt, h]

theorem beganAt_of_region {r : Region} (h : (s.execution i).region? = some r) :
    s.beganAt i = s.since i := by
  unfold beganAt
  split
  · next hstarting =>
    rw [hstarting] at h
    cases h
  · rfl

/-- What an execution that moved has to show. -/
structure Stage (h : History) (since : Nat) (t : List Access) (x : Execution) : Prop where
  /-- Its region stands. -/
  region : ∀ r, x.region? = some r → r.Stands h since t
  /-- It has begun. -/
  begun : x ≠ .starting

/-- An execution that has ended has no region. -/
theorem Stage.done {h : History} {since : Nat} {t : List Access}
    (result : Except HardwareAbort Word) : Stage h since t (.done result) where
  region _ hr := by cases hr
  begun hstarting := by cases hstarting

theorem Stage.of_region {h : History} {since : Nat} {t : List Access} {x : Execution} {r : Region}
    (hr : x.region? = some r) (S : r.Stands h since t) : Stage h since t x where
  region r' hr' := by
    obtain rfl := Option.some.inj (hr.symm.trans hr')
    exact S
  begun hstarting := by
    rw [hstarting] at hr
    cases hr

/-- A state is standing again if history and memory go on together, and those executions that moved
have shown what they have to. -/
theorem Standing.transfer (I : s.Standing m₀)
    (emulator : ∃ e, s'.backend = .emulated e ∧ e.version = stamp s'.history.count)
    (memory : s'.memory = s'.history.last)
    (history : s'.history = s.history ∨ ∃ m, s'.history = s.history.publish m)
    (each : ∀ i, (s'.execution i = s.execution i ∧ s'.since i = s.since i ∧
        s'.trace i = s.trace i) ∨
      Stage s'.history (s'.since i) (s'.trace i) (s'.execution i)) : s'.Standing m₀ where
  first := by
    rcases history with hhistory | ⟨m, hhistory⟩ <;> rw [hhistory]
    · exact I.first
    · rw [History.memory_publish_of_le (Nat.zero_le _)]
      exact I.first
  emulator := emulator
  memory := memory
  region i r hr := by
    rcases each i with ⟨hexecution, hsince, htrace⟩ | hstage
    · rw [hexecution] at hr
      rw [hsince, htrace]
      -- The history is the same, or a longer one.
      rcases history with hhistory | ⟨m, hhistory⟩ <;> rw [hhistory]
      · exact I.region i r hr
      · exact (I.region i r hr).publish m
    · exact hstage.region r hr
  fresh i hstarting := by
    rcases each i with ⟨hexecution, -, htrace⟩ | hstage
    · rw [htrace]
      exact I.fresh i (hexecution ▸ hstarting)
    · exact absurd hstarting hstage.begun

theorem committed_of_others
    (others : ∀ j, j ≠ i → s'.execution j = s.execution j ∧ s'.trace j = s.trace j)
    (own : ∀ t, s'.Committed i t ↔ s.Committed i t) (j : ι) (t : List Access) :
    s'.Committed j t ↔ s.Committed j t := by
  by_cases hj : j = i
  · subst hj
    exact own t
  · obtain ⟨hexecution, htrace⟩ := others j hj
    rw [Committed, Committed, hexecution, htrace]

namespace Standing

theorem running (I : s.Standing m₀) {r : Region} (hrunning : s.execution i = .running r) :
    r.Stands s.history (s.since i) (s.trace i) :=
  I.region i r (by rw [hrunning]; rfl)

theorem version_eq (I : s.Standing m₀) {e : Emulator} (hbackend : s.backend = .emulated e) :
    e.version = stamp s.history.count := by
  obtain ⟨e₁, hbackend₁, hcount⟩ := I.emulator
  obtain rfl := Backend.emulated.inj (hbackend.symm.trans hbackend₁)
  exact hcount

variable [DecidableEq ι]

/-- A call of a body keeps memory and record, and every other region. -/
theorem update (I : s.Standing m₀) {r : Region} (hrunning : s.execution i = .running r)
    {x : Execution} {t : List Access} (stage : Stage s.history (s.since i) t x)
    (hx : ∀ value, x ≠ .done (.ok value)) :
    (s.update i x t).Standing m₀ ∧ Effect s (s.update i x t) := by
  refine ⟨I.transfer I.emulator I.memory (Or.inl rfl) fun j => ?_,
    .quiet rfl rfl (committed_of_others (i := i) (fun j hj => ?_) fun t' => ?_)⟩
  · by_cases hj : j = i
    · subst hj
      simpa [RegionSystem.update] using Or.inr stage
    · simp [RegionSystem.update, hj]
  · simp [RegionSystem.update, hj]
  · simp [Committed, RegionSystem.update, hrunning, hx]

/-- An execution takes its own next step. -/
theorem advanced (I : s.Standing m₀) {e e' : Emulator} {m' : Memory}
    (hbackend : s.backend = .emulated e)
    (hversion : (e'.version = e.version ∧ m' = s.memory) ∨ e'.version = e.version + 2)
    {x : Execution} (stage : Stage (s.history.track s.backend (.emulated e') m') (s.beganAt i)
      (s.trace i) x) : (s.advanced i x (.emulated e') m').Standing m₀ := by
  obtain ⟨hcount, hlast, hhistory⟩ :=
    History.track_follows (I.version_eq hbackend) I.memory hversion (by rw [← hbackend])
  refine I.transfer ⟨e', rfl, hcount⟩ hlast hhistory fun j => ?_
  by_cases hj : j = i
  · subst hj
    simpa [RegionSystem.advanced] using Or.inr stage
  · simp [RegionSystem.advanced, hj]

/-- A step of an execution that is no commit keeps memory and record. -/
theorem advanced_quiet (I : s.Standing m₀) {e e' : Emulator} (hbackend : s.backend = .emulated e)
    (hversion : e'.version = e.version) {x : Execution}
    (stage : Stage s.history (s.beganAt i) (s.trace i) x)
    (hbefore : ∀ value, s.execution i ≠ .done (.ok value)) (hx : ∀ value, x ≠ .done (.ok value)) :
    (s.advanced i x (.emulated e') s.memory).Standing m₀ ∧
      Effect s (s.advanced i x (.emulated e') s.memory) := by
  have hdeeds : s.recorded i x = s.deeds := by
    unfold recorded
    split
    · next value => exact absurd rfl (hx value)
    · rfl
  refine ⟨I.advanced hbackend (Or.inl ⟨hversion, rfl⟩) ?_,
    .quiet rfl hdeeds (committed_of_others (i := i) (fun j hj => ?_) fun t => ?_)⟩
  · rwa [hbackend, History.track_same hversion]
  · simp [RegionSystem.advanced, hj]
  · simp [Committed, RegionSystem.advanced, hbefore, hx]

/-- A region that commits finds its reads current, and all of its writes appear at once. -/
theorem advanced_commit (I : s.Standing m₀) {r : Region} {value : Word}
    (hstage : s.execution i = .committing r value) {b' : Backend} {m' : Memory}
    (hcommit : s.backend.commit r s.memory = .ok (b', m')) :
    (s.advanced i (.done (.ok value)) b' m').Standing m₀ ∧
      Effect s (s.advanced i (.done (.ok value)) b' m') := by
  have S : r.Stands s.history (s.since i) (s.trace i) := I.region i r (by rw [hstage]; rfl)
  obtain ⟨hcurrent, hm', -⟩ := Backend.commit_ok hcommit
  have hmemory : m' = after (s.trace i) s.memory := hm'.trans (S.records.holds s.memory)
  obtain ⟨e, hbackend, -⟩ := I.emulator
  rw [hbackend] at hcommit
  obtain ⟨e', rfl, hversion⟩ := Backend.commit_emulated hcommit
  refine ⟨I.advanced hbackend hversion (.done _), .commit i r value hstage hcurrent
    ((S.records.consistent _).1 hcurrent) hmemory rfl fun j t => ?_⟩
  by_cases hj : j = i
  · subst hj
    simp [Committed, RegionSystem.advanced, hstage, eq_comm]
  · simp [Committed, RegionSystem.advanced, hj]

/-- A compare-and-swap keeps every region. -/
theorem exchange (I : s.Standing m₀) {a : Addr} {current new : Word}
    (hcall : s.call (.exchange a current new) = some s') : s'.Standing m₀ ∧ Effect s s' := by
  obtain ⟨e, hbackend, -⟩ := I.emulator
  rcases hswap : s.backend.compareExchange s.memory a current new with ⟨seen, b', m'⟩
  rw [call, hswap] at hcall
  obtain rfl := Option.some.inj hcall
  rw [hbackend] at hswap
  obtain ⟨hfound, e', rfl, hversion⟩ := Backend.compareExchange_emulated hswap
  obtain ⟨hcount, hlast, hhistory⟩ :=
    History.track_follows (I.version_eq hbackend) I.memory (Or.inr hversion) (by rw [← hbackend])
  exact ⟨I.transfer ⟨e', rfl, hcount⟩ hlast hhistory fun j => Or.inl ⟨rfl, rfl, rfl⟩,
    .exchange a current new seen (by rw [hfound]) (by rw [hfound]) rfl fun _ _ => Iff.rfl⟩

/-- The next step of an execution keeps every region. -/
theorem advance (I : s.Standing m₀) {x : Execution} {b' : Backend} {m' : Memory}
    (hadvance : (s.execution i).advance s.backend s.memory = some (x, b', m')) :
    (s.advanced i x b' m').Standing m₀ ∧ Effect s (s.advanced i x b' m') := by
  obtain ⟨e, hbackend, hcount⟩ := I.emulator
  have turn := Execution.turn_of_advance hadvance
  generalize hstage : s.execution i = x₀ at turn
  -- On most turns emulator and memory stay as they are, and no region commits.
  have still {x : Execution} (hx₀ : ∀ value, x₀ ≠ .done (.ok value))
      (hx : ∀ value, x ≠ .done (.ok value)) (stage : Stage s.history (s.beganAt i) (s.trace i) x) :
      (s.advanced i x s.backend s.memory).Standing m₀ ∧
        Effect s (s.advanced i x s.backend s.memory) := by
    have := I.advanced_quiet hbackend rfl stage (hstage ▸ hx₀) hx
    rwa [← hbackend] at this
  have same {r : Region} {x : Execution} (hr₀ : x₀.region? = some r) (hr : x.region? = some r) :
      Stage s.history (s.beganAt i) (s.trace i) x := by
    rw [beganAt_of_region (hstage ▸ hr₀)]
    exact .of_region hr (I.region i r (hstage ▸ hr₀))
  cases turn with
  | refused enters =>
    rw [hbackend] at enters
    obtain ⟨e', rfl, hversion⟩ := Backend.enter_emulated enters
    exact I.advanced_quiet hbackend hversion (.done _) (by simp [hstage]) (by simp)
  | entered enters =>
    rw [hbackend] at enters
    obtain ⟨e', rfl, hversion⟩ := Backend.enter_emulated enters
    refine I.advanced_quiet hbackend hversion (.of_region rfl ?_) (by simp [hstage]) (by simp)
    rw [I.fresh i hstage, beganAt_of_starting hstage]
    exact .enter hcount enters
  | doomed value hdoomed => exact still (by simp) (by simp) (.done _)
  | hook value name sound => exact still (by simp) (by simp) (same rfl rfl)
  | ready value sound => exact still (by simp) (by simp) (same rfl rfl)
  | resumed name r value => exact still (by simp) (by simp) (same rfl rfl)
  | commit value commits => exact I.advanced_commit hstage commits
  | conflict value fails => exact still (by simp) (by simp) (.done _)

/-- Every call keeps every region standing, and there are three things it can do to memory and
record. -/
theorem step (I : s.Standing m₀) (hstep : Step s s') : s'.Standing m₀ ∧ Effect s s' := by
  obtain ⟨c, hcall⟩ := hstep
  cases c with
  | advance i =>
    obtain ⟨⟨x, b', m'⟩, hadvance, rfl⟩ := Option.map_eq_some_iff.1 hcall
    exact I.advance hadvance
  | read i a mask =>
    obtain ⟨r, hbody, rfl⟩ := Option.map_eq_some_iff.1 hcall
    have hrunning := Execution.body?_eq_some_iff.1 hbody
    obtain ⟨e, hbackend, hcount⟩ := I.emulator
    rcases hread : s.backend.read r s.memory a mask with ⟨result, r'⟩
    rw [Execution.read, hread]
    rw [hbackend, I.memory] at hread
    exact I.update hrunning (.of_region rfl ((I.running hrunning).read hcount hread)) (by simp)
  | write i a v mask =>
    obtain ⟨r, hbody, rfl⟩ := Option.map_eq_some_iff.1 hcall
    have hrunning := Execution.body?_eq_some_iff.1 hbody
    rcases hwrite : s.backend.write r a v mask with ⟨abort | ⟨⟩, r'⟩ <;>
      rw [Execution.write, hwrite]
    · exact I.update hrunning (.of_region rfl ((I.running hrunning).write_error hwrite)) (by simp)
    · exact I.update hrunning (.of_region rfl ((I.running hrunning).write hwrite)) (by simp)
  | abort i code =>
    obtain ⟨r, hbody, rfl⟩ := Option.map_eq_some_iff.1 hcall
    have hrunning := Execution.body?_eq_some_iff.1 hbody
    have S := (I.running hrunning).doom (.explicit code)
    exact I.update hrunning (.of_region rfl S) (by simp [Execution.abort])
  | endBody i result =>
    obtain ⟨r, hbody, rfl⟩ := Option.map_eq_some_iff.1 hcall
    have hrunning := Execution.body?_eq_some_iff.1 hbody
    cases result with
    | error err => exact I.update hrunning (.done _) (by simp [Execution.endBody])
    | ok value =>
      exact I.update hrunning (.of_region rfl (I.running hrunning)) (by simp [Execution.endBody])
  | exchange a current new => exact I.exchange hcall
  | setFaults f =>
    obtain rfl := Option.some.inj hcall
    obtain ⟨e, hbackend, hcount⟩ := I.emulator
    have hfaults : s.backend.modifyFaults f = .emulated { e with faults := f e.faults } := by
      rw [hbackend]
      rfl
    exact ⟨I.transfer ⟨_, hfaults, hcount⟩ I.memory (Or.inl rfl) fun j => Or.inl ⟨rfl, rfl, rfl⟩,
      .quiet rfl rfl fun _ _ => Iff.rfl⟩

end Standing

end RegionSystem

end HybridTM
