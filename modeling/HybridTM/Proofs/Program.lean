import HybridTM.Hybrid.Runtime
import HybridTM.Proofs.Access

/-!
# Bodies as programs

An invocation of a body asks for accesses of the words of data, one after the other, and goes on
with what it is told (`Program`). Run alone it works on memory in place, and every access succeeds
(`Program.run`); a run can also be made in which certain reads fail (`Program.runFailing`).

An invocation that made accesses which agree with a memory would have done the same alone on that
memory, as long as the reads fail that failed in it (`Program.Reaches.runFailing`).
-/

set_option autoImplicit false

namespace HybridTM

/-- What an invocation of a body does from a point on. -/
inductive Program where
  /-- It returns a value. -/
  | ret (value : Word)
  /-- It returns an error. -/
  | fail (err : TxError)
  /-- It panics. -/
  | panic
  /-- It reads a word of data. -/
  | read (i : Nat) (mask : Mask) (next : Except TxError Word → Program)
  /-- It writes a word of data. -/
  | write (i : Nat) (v : Word) (mask : Mask) (next : Except TxError Unit → Program)
  /-- It aborts its hardware region. -/
  | abort (code : UInt8) (next : TxError → Program)

namespace Program

/-- The value that a program returns, if it does, and the memory it leaves behind, when it runs
alone on a memory and its reads fail as listed: the first entry is for the first read, and reads
past the list succeed. -/
def runFailing : Program → List (Option TxError) → Memory → Option Word × Memory
  | .ret value, _, m => (some value, m)
  | .fail _, _, m => (none, m)
  | .panic, _, m => (none, m)
  | .read _ _ next, some err :: failures, m => (next (.error err)).runFailing failures m
  | .read i mask next, none :: failures, m =>
      (next (.ok (m.read (Runtime.wordAddr i) &&& mask))).runFailing failures m
  | .read i mask next, [], m =>
      (next (.ok (m.read (Runtime.wordAddr i) &&& mask))).runFailing [] m
  | .write i v mask next, failures, m =>
      (next (.ok ())).runFailing failures (m.store (Runtime.wordAddr i) v mask)
  | .abort code next, failures, m =>
      (next (.hardware (.explicit code))).runFailing failures m

/-- The value that a program returns, if it does, and the memory it leaves behind, when it runs
alone on a memory. -/
def run (p : Program) (m : Memory) : Option Word × Memory := p.runFailing [] m

/-- Where no failure is listed a program simply runs alone. -/
theorem runFailing_of_forall_none {failures : List (Option TxError)}
    (h : ∀ f ∈ failures, f = none) (p : Program) (m : Memory) :
    p.runFailing failures m = p.run m := by
  unfold run
  induction p generalizing failures m with
  | ret value => rfl
  | fail err => rfl
  | panic => rfl
  | read i mask next ih =>
    cases failures with
    | nil => rfl
    | cons f failures =>
      obtain rfl := h f List.mem_cons_self
      exact ih _ (fun g hg => h g (List.mem_cons_of_mem _ hg)) m
  | write i v mask next ih => exact ih _ h _
  | abort code next ih => exact ih _ h m

/-- A program reaches a point by a run of accesses that succeed, except for reads. -/
inductive Reaches : Program → List Access → Program → Prop
  /-- At the beginning. -/
  | refl (p : Program) : Reaches p [] p
  /-- After a further read. -/
  | read {p : Program} {t : List Access} {i : Nat} {mask : Mask}
      {next : Except TxError Word → Program} (before : Reaches p t (.read i mask next))
      (result : Except TxError Word) :
      Reaches p (t ++ [.read (Runtime.wordAddr i) mask result]) (next result)
  /-- After a further write. -/
  | write {p : Program} {t : List Access} {i : Nat} {v : Word} {mask : Mask}
      {next : Except TxError Unit → Program} (before : Reaches p t (.write i v mask next)) :
      Reaches p (t ++ [.write (Runtime.wordAddr i) v mask]) (next (.ok ()))

end Program

/-- What the reads of a run of accesses told their caller when they failed. -/
def failures (t : List Access) : List (Option TxError) := t.filterMap Access.failure?

/-- No read of a run failed. -/
def Unfailing (t : List Access) : Prop := ∀ f ∈ failures t, f = none

theorem failures_concat (t : List Access) (x : Access) :
    failures (t ++ [x]) = failures t ++ x.failure?.toList := by
  rw [failures, failures, List.filterMap_append]
  cases hx : x.failure? <;> simp [hx]

theorem unfailing_nil : Unfailing [] := fun _ hf => absurd hf List.not_mem_nil

theorem Unfailing.read {t : List Access} (h : Unfailing t) (a : Addr) (mask : Mask) (v : Word) :
    Unfailing (t ++ [.read a mask (.ok v)]) := by
  intro f hf
  rw [failures_concat, List.mem_append] at hf
  rcases hf with hf | hf
  · exact h f hf
  · simpa [Access.failure?] using hf

theorem Unfailing.write {t : List Access} (h : Unfailing t) (a : Addr) (v : Word) (mask : Mask) :
    Unfailing (t ++ [.write a v mask]) := by
  intro f hf
  rw [failures_concat, List.mem_append] at hf
  rcases hf with hf | hf
  · exact h f hf
  · simp [Access.failure?] at hf

namespace Program.Reaches

variable {p p' : Program} {t : List Access}

/-- Alone on a memory that its accesses agree with, and with the reads failing that failed, a
program reaches the same point. -/
theorem runFailing_append (h : Reaches p t p') {m : Memory} (agrees : Agrees t m)
    (rest : List (Option TxError)) :
    p.runFailing (failures t ++ rest) m = p'.runFailing rest (after t m) := by
  -- The last access comes first in what is left to do.
  induction h generalizing rest with
  | refl => rfl
  | @read t i mask next before result ih =>
    cases result with
    | ok v =>
      rw [agrees_read_concat] at agrees
      rw [failures_concat, List.append_assoc, ih agrees.1, after_concat, agrees.2]
      rfl
    | error err =>
      rw [agrees_failure_concat] at agrees
      rw [failures_concat, List.append_assoc, ih agrees, after_concat]
      rfl
  | @write t i v mask next before ih =>
    rw [agrees_write_concat] at agrees
    rw [failures_concat, List.append_assoc, ih agrees, after_concat]
    rfl

/-- A program that returned a value returns it alone on every memory that its accesses agree with,
and leaves behind what its writes make of this memory. -/
theorem runFailing {value : Word} (h : Reaches p t (.ret value)) {m : Memory}
    (agrees : Agrees t m) : p.runFailing (failures t) m = (some value, after t m) := by
  have := h.runFailing_append agrees []
  rwa [List.append_nil] at this

end Program.Reaches

end HybridTM
