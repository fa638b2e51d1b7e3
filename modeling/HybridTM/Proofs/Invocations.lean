import HybridTM.Proofs.Order
import HybridTM.Proofs.Soundness

/-!
# What carries an invocation

While a body runs in software its transaction carries the invocation: it is an attempt that stands
somewhere in the history and made the accesses of the body. In hardware the logs of the region carry
it, as long as the region is not doomed: they account for a read of the mode word and after that for
the accesses of the body (`Phase.Carries`).

A step of the body keeps this (`Execution.Carries.read`, `Transaction.Carries.read` and so on), and
an invocation that returned a value, and whose accesses agree with a memory, would have returned it
alone on that memory (`Invocation.Explained.replay`).
-/

set_option autoImplicit false

namespace HybridTM

/-! ## Invocations that returned a value -/

/-- An invocation returned a value after accesses that agree with a memory. -/
structure Invocation.Explained (I : Invocation) (value : Word) (m : Memory) : Prop where
  /-- The program came to the value. -/
  reaches : I.program.Reaches I.trace (.ret value)
  /-- It accessed words of data. -/
  within : Within Runtime.IsData I.trace
  /-- Its reads agree with the memory. -/
  agrees : Agrees I.trace m
  /-- Reads fail in optimistic attempts only. -/
  unfailing : I.path ≠ .software → Unfailing I.trace

/-- Alone on a memory with the same words of data the call gives the same value. -/
theorem Invocation.Explained.replay {ι : Type} {I : Invocation} {value : Word} {m m' : Memory}
    (E : I.Explained value m) (h : Memory.SameOn Runtime.IsData m' m) (i : ι) :
    (I.completed i value).replay m' = (some value, HybridTM.after I.trace m') := by
  have hagrees : Agrees I.trace m' := (agrees_congr E.within h).2 E.agrees
  exact E.reaches.runFailing hagrees

/-! ## Definitions -/

/-- The logs of a region account for an invocation. -/
structure Region.Carries (r : Region) (I : Invocation) : Prop where
  /-- The invocation runs in hardware. -/
  path : I.path = .hardware
  /-- It came this far. -/
  reaches : I.program.Reaches I.trace I.rest
  /-- It accessed words of data. -/
  within : Within Runtime.IsData I.trace
  /-- What the region did is a read of the mode word, and after that what the body did. -/
  records : ∃ word,
    Records (.read Runtime.modeAddr fullMask (.ok word) :: I.trace) r.reads r.writes
  /-- A read that fails dooms the region. -/
  unfailing : Unfailing I.trace

/-- A transaction is an attempt that made the accesses of an invocation. -/
structure Transaction.Carries (tx : Transaction) (h : History) (c : Clock) (I : Invocation) :
    Prop where
  /-- The invocation runs where the role of the transaction says. -/
  path : I.path = .ofRole tx.role
  /-- It came this far. -/
  reaches : I.program.Reaches I.trace I.rest
  /-- The transaction has begun. -/
  active : tx.active = true
  /-- It stands somewhere in the history. -/
  attempt : ∃ since k, Attempt Runtime.IsData h c since k I.trace tx
  /-- Reads of an irrevocable attempt do not fail. -/
  unfailing : tx.role.isIrrevocable = true → Unfailing I.trace

/-- An execution carries an invocation as long as its region is not doomed. -/
def Execution.Carries (I : Invocation) : Execution → Prop
  | .starting | .done _ => True
  | .running r => r.doomed = none → r.Carries I
  | .returned r value | .hook _ r value | .committing r value =>
      r.doomed = none → r.Carries I ∧ I.rest = .ret value

/-- A software call carries an invocation from the beginning of its attempt on. -/
def Call.Carries (h : History) (c : Clock) (I : Invocation) (call : Call) : Prop :=
  match call.stage with
  | .starting => call.tx.role = .readOnly
  | .running | .aborting _ => call.tx.Carries h c I
  | .committing value => call.tx.Carries h c I ∧ I.rest = .ret value

/-- A worker carries an invocation while it runs. -/
def Phase.Carries (h : History) (c : Clock) (I : Invocation) : Phase → Prop
  | .hardware _ x => x.Carries I
  | .software _ call => call.Carries h c I
  | _ => True

/-- The role of a software call. -/
def Phase.role? : Phase → Option Role
  | .software _ call => some call.tx.role
  | _ => none

theorem Phase.exists_of_role? {p : Phase} {role : Role} (h : p.role? = some role) :
    ∃ place call, p = .software place call ∧ call.tx.role = role := by
  cases p with
  | software place call => exact ⟨place, call, rfl, Option.some.inj h⟩
  | _ => cases h

/-! ## Steps of a body -/

namespace Program

variable {p : Program}

theorem request_eq_read {a : Addr} {mask : Mask} (h : p.request = .read a mask) :
    ∃ i next, p = .read i mask next ∧ a = Runtime.wordAddr i := by
  cases p <;> cases h
  exact ⟨_, _, rfl, rfl⟩

theorem request_eq_write {a : Addr} {v : Word} {mask : Mask} (h : p.request = .write a v mask) :
    ∃ i next, p = .write i v mask next ∧ a = Runtime.wordAddr i := by
  cases p <;> cases h
  exact ⟨_, _, rfl, rfl⟩

theorem request_eq_endBody {value : Word} (h : p.request = .endBody (.ok value)) :
    p = .ret value := by
  cases p <;> cases h
  rfl

end Program

theorem Runtime.isData_wordAddr (i : Nat) : IsData (wordAddr i) := by
  simp [IsData, wordAddr, HybridTM.wordAddr, modeAddr]

namespace Invocation

variable {I : Invocation} {i : Nat} {mask : Mask}

/-- The invocation after a read. -/
theorem resume_read {next : Except TxError Word → Program} (h : I.rest = .read i mask next)
    (result : Except TxError Word) : I.resume (.read result) =
      { I with
        trace := I.trace ++ [.read (Runtime.wordAddr i) mask result]
        rest := next result } := by
  simp [resume, h, Program.access, Program.resume]

/-- The invocation after a write that succeeded. -/
theorem resume_wrote {v : Word} {next : Except TxError Unit → Program}
    (h : I.rest = .write i v mask next) : I.resume (.wrote (.ok ())) =
      { I with
        trace := I.trace ++ [.write (Runtime.wordAddr i) v mask]
        rest := next (.ok ()) } := by
  simp [resume, h, Program.access, Program.resume]

/-- A program that ends its body does nothing else. -/
theorem resume_done {result : Except TxError Word} (h : I.rest.request = .endBody result) :
    I.resume .done = I := by
  obtain ⟨path, program, trace, rest⟩ := I
  cases rest <;> cases h <;> simp [resume, Program.access, Program.resume]

end Invocation

namespace Region.Carries

variable {b : Backend} {r r' : Region} {m : Memory} {I : Invocation}

/-- A region that has read the mode word and nothing else carries an invocation that begins. -/
theorem of_check (hreads : r.reads = .empty) (hwrites : r.writes = .empty) {word : Word}
    (h : b.read r m Runtime.modeAddr fullMask = (.ok word, r')) (p : Program) :
    r'.Carries (.start .hardware p) := by
  have R : Records [] r.reads r.writes := by
    rw [hreads, hwrites]
    exact .empty
  refine ⟨rfl, .refl p, fun x hx => absurd hx List.not_mem_nil, ⟨word, ?_⟩, unfailing_nil⟩
  rcases Backend.read_cases h with ⟨abort, herror, -⟩ | ⟨-, -, hw, bits, covered, hl, hcase⟩
  · cases herror
  · rcases hcase with ⟨rfl, hvalue, hr⟩ | ⟨-, hvalue, hr⟩ <;>
      obtain rfl := Except.ok.inj hvalue <;> rw [hr, hw]
    · exact R.buffered hl
    · exact R.fetched hl _

/-- A region that commits finds the accesses of the body in agreement with memory, and makes of
memory what the body did. -/
theorem commit (C : r.Carries I) {b' : Backend} {m' : Memory} (h : b.commit r m = .ok (b', m'))
    {value : Word} (hrest : I.rest = .ret value) :
    I.Explained value m ∧ m' = HybridTM.after I.trace m := by
  obtain ⟨word, R⟩ := C.records
  have reaches := C.reaches
  rw [hrest] at reaches
  obtain ⟨hconsistent, rfl, -, -⟩ := Backend.commit_ok h
  -- The read of the mode word comes first and changes nothing.
  have hagrees := (R.consistent m).1 hconsistent
  exact ⟨⟨reaches, C.within, hagrees.2, fun _ => C.unfailing⟩, R.holds m⟩

end Region.Carries

namespace Execution.Carries

variable {b : Backend} {r r' : Region} {m : Memory} {I : Invocation}

theorem read (C : (running r).Carries I) (supported : b.isSupported = true) {i : Nat}
    {mask : Mask} {next : Except TxError Word → Program} (hrest : I.rest = .read i mask next)
    {result : Except HardwareAbort Word}
    (h : b.read r m (Runtime.wordAddr i) mask = (result, r')) :
    (running r').Carries (I.resume (.read (result.mapError .hardware))) := by
  intro hdoomed
  -- A read that fails dooms the region.
  rcases Backend.read_cases h with ⟨abort, -, -, -, hfailed⟩ |
    ⟨hbefore, -, -, bits, covered, -, hcase⟩
  · exact absurd hdoomed (hfailed supported)
  have C := C hbefore
  obtain ⟨word, R⟩ := C.records
  have reaches := C.reaches
  rw [hrest] at reaches
  rw [Invocation.resume_read hrest]
  -- The value comes from the buffer, or from memory with an entry in the log.
  have R' := Backend.records_read R h
  obtain ⟨v, rfl⟩ : ∃ v, result = .ok v := by
    rcases hcase with ⟨-, hvalue, -⟩ | ⟨-, hvalue, -⟩ <;> exact ⟨_, hvalue⟩
  exact {
    path := C.path
    reaches := reaches.read (.ok v)
    within := within_concat.2 ⟨C.within, Runtime.isData_wordAddr i⟩
    records := ⟨word, R'⟩
    unfailing := C.unfailing.read _ _ v }

theorem write (C : (running r).Carries I) (supported : b.isSupported = true) {i : Nat} {v : Word}
    {mask : Mask} {next : Except TxError Unit → Program} (hrest : I.rest = .write i v mask next)
    {result : Except HardwareAbort Unit}
    (h : b.write r (Runtime.wordAddr i) v mask = (result, r')) :
    (running r').Carries (I.resume (.wrote (result.mapError .hardware))) := by
  intro hdoomed
  -- So does a write.
  rcases Backend.write_cases h with ⟨abort, -, -, -, hfailed⟩ | ⟨hbefore, rfl, rfl⟩
  · exact absurd hdoomed (hfailed supported)
  have C := C hbefore
  obtain ⟨word, R⟩ := C.records
  have reaches := C.reaches
  rw [hrest] at reaches
  rw [show (Except.ok () : Except HardwareAbort Unit).mapError TxError.hardware = .ok () from rfl,
    Invocation.resume_wrote hrest]
  exact {
    path := C.path
    reaches := reaches.write
    within := within_concat.2 ⟨C.within, Runtime.isData_wordAddr i⟩
    records := ⟨word, R.write _ v mask⟩
    unfailing := C.unfailing.write _ v mask }

end Execution.Carries

namespace Transaction.Carries

variable {s : Shared} {h : History} {held : Bool} {c : Clock} {I : Invocation}
  {tx tx' : Transaction}

/-- A transaction that made no access carries an invocation that begins. -/
theorem begin {since k : Nat} (A : Attempt Runtime.IsData h c since k [] tx)
    (hactive : tx.active = true) (p : Program) : tx.Carries h c (.start (.ofRole tx.role) p) :=
  ⟨rfl, .refl p, hactive, ⟨since, k, A⟩, fun _ => unfailing_nil⟩

theorem read (C : tx.Carries h s.clock I) (S : s.Shows Runtime.IsData h held) {i : Nat}
    {mask : Mask} {next : Except TxError Word → Program} (hrest : I.rest = .read i mask next)
    {result : Except TxError Word}
    (hr : tx.read s (Runtime.wordAddr i) mask = some (result, tx')) :
    tx'.Carries h s.clock (I.resume (.read result)) := by
  obtain ⟨since, k, A⟩ := C.attempt
  have reaches := C.reaches
  rw [hrest] at reaches
  obtain ⟨k', -, A'⟩ := A.read S (Runtime.isData_wordAddr i) hr
  obtain ⟨hrole, hactive, -⟩ := Transaction.kept_read hr
  rw [Invocation.resume_read hrest]
  refine ⟨by rw [hrole]; exact C.path, reaches.read result, hactive.trans C.active,
    ⟨since, k', A'⟩, ?_⟩
  intro hirr
  -- Only an optimistic read can fail.
  rw [hrole] at hirr
  obtain ⟨bits, covered, -, ⟨-, rfl, -⟩ | ⟨-, -, rfl⟩ | ⟨ho, -⟩ | ⟨ho, -⟩⟩ :=
    Transaction.read_cases hr
  · exact (C.unfailing hirr).read _ _ _
  · exact (C.unfailing hirr).read _ _ _
  · rw [hirr] at ho
    cases ho
  · rw [hirr] at ho
    cases ho

theorem write (C : tx.Carries h c I) {i : Nat} {v : Word} {mask : Mask}
    {next : Except TxError Unit → Program} (hrest : I.rest = .write i v mask next) :
    (tx.write (Runtime.wordAddr i) v mask).Carries h c (I.resume (.wrote (.ok ()))) := by
  obtain ⟨since, k, A⟩ := C.attempt
  have reaches := C.reaches
  rw [hrest] at reaches
  rw [Invocation.resume_wrote hrest]
  have A' := A.write (Runtime.isData_wordAddr i) v mask
  rcases Transaction.role_write tx (Runtime.wordAddr i) v mask with ⟨hrole, hold⟩ | ⟨hrole, -⟩
  · refine ⟨?_, reaches.write, C.active, ⟨since, k, A'⟩, ?_⟩
    · rw [C.path, hold, hrole]
      rfl
    · intro hirr
      rw [hrole] at hirr
      cases hirr
  · refine ⟨by rw [hrole]; exact C.path, reaches.write, C.active, ⟨since, k, A'⟩, ?_⟩
    intro hirr
    rw [hrole] at hirr
    exact (C.unfailing hirr).write _ v mask

/-- A transaction whose accesses agree with a memory explains the value that its body returned. -/
theorem explained (C : tx.Carries h c I) {value : Word} (hrest : I.rest = .ret value) {m : Memory}
    (hagrees : Agrees I.trace m) : I.Explained value m := by
  obtain ⟨since, k, A⟩ := C.attempt
  have reaches := C.reaches
  rw [hrest] at reaches
  refine ⟨reaches, A.within, hagrees, fun hpath => C.unfailing ?_⟩
  rw [C.path] at hpath
  cases hrole : tx.role with
  | readOnly => exact absurd (by rw [hrole]; rfl) hpath
  | readWrite => exact absurd (by rw [hrole]; rfl) hpath
  | serial => rfl
  | exclusive => rfl

/-- What others publish leaves an optimistic attempt where it stands. -/
theorem of_others (C : tx.Carries h c I) (ho : tx.role.isIrrevocable = false) {h' : History}
    (hcount : h.count ≤ h'.count) (hmem : ∀ k, k ≤ h.count → h'.memory k = h.memory k)
    (c' : Clock) : tx.Carries h' c' I := by
  obtain ⟨since, k, A⟩ := C.attempt
  have A' := A.of_others ho hcount (hmem k A.le_count) c'
  exact ⟨C.path, C.reaches, C.active, ⟨since, k, A'⟩, C.unfailing⟩

/-- Without a commit an attempt gives the clock back if it is serial, and publishes nothing. -/
theorem released (C : tx.Carries h c I) :
    tx.role ≠ .serial ∧ tx.released c = c ∨
      tx.role = .serial ∧ tx.released c = .of (h.count + 1) false := by
  obtain ⟨since, k, A⟩ := C.attempt
  have hreleased := A.released fun _ => C.active
  by_cases hrole : tx.role = .serial
  · rw [if_pos hrole] at hreleased
    exact Or.inr ⟨hrole, hreleased⟩
  · rw [if_neg hrole] at hreleased
    exact Or.inl ⟨hrole, hreleased⟩

end Transaction.Carries

/-! ## Steps of others -/

namespace Phase.Carries

variable {h h' : History} {c : Clock} {I : Invocation} {p : Phase}

/-- What others publish leaves a worker alone whose attempt is optimistic. -/
theorem of_others (C : p.Carries h c I)
    (ho : ∀ role, p.role? = some role → role.isIrrevocable = false)
    (hcount : h.count ≤ h'.count) (hmem : ∀ k, k ≤ h.count → h'.memory k = h.memory k)
    (c' : Clock) : p.Carries h' c' I := by
  cases p with
  | software place call =>
    obtain ⟨tx, stage⟩ := call
    have ho' : tx.role.isIrrevocable = false := ho _ rfl
    cases stage with
    | starting => exact C
    | running => exact Transaction.Carries.of_others C ho' hcount hmem c'
    | committing value => exact ⟨C.1.of_others ho' hcount hmem c', C.2⟩
    | aborting err => exact Transaction.Carries.of_others C ho' hcount hmem c'
  | _ => exact C

/-- A serial attempt holds the clock. -/
theorem held_of_serial {held : Bool} {s : Shared} (C : p.Carries h s.clock I)
    (S : s.Shows Runtime.IsData h held) (hrole : p.role? = some .serial) : held = true := by
  have key {tx : Transaction} (C : tx.Carries h s.clock I) (hserial : tx.role = .serial) :
      held = true := by
    obtain ⟨since, k, A⟩ := C.attempt
    exact A.held_of_serial S hserial
  obtain ⟨place, ⟨tx, stage⟩, rfl, hserial⟩ := Phase.exists_of_role? hrole
  cases stage with
  | starting =>
    have hreadOnly : tx.role = .readOnly := C
    rw [hreadOnly] at hserial
    cases hserial
  | running => exact key C hserial
  | committing value => exact key C.1 hserial
  | aborting err => exact key C hserial

/-- A worker without a software call does not look at the history. -/
theorem of_quiet (C : p.Carries h c I) (hq : p.role? = none) (h' : History) (c' : Clock) :
    p.Carries h' c' I := by
  cases p with
  | software place call => cases hq
  | _ => exact C

end Phase.Carries

end HybridTM
