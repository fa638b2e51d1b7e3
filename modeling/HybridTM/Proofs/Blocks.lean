import HybridTM.Hardware.Execution
import HybridTM.Hybrid.Phase
import HybridTM.Proofs.PendingWrites
import HybridTM.Transaction

/-!
# Blocks

A block asks for accesses one after the other, goes on with what it is told, and in the end commits
or gives up (`Block`). The plain model of a block works on memory in place (`Block.plain`,
`Block.report`). A machine runs blocks one after the other, each alone, on any of the four paths
(`BlockMachine.run`): as a hardware region, or as a software transaction in one of three roles.

`Block.drive_eq_plain` reduces what a path has to show to its single accesses.
-/

set_option autoImplicit false

namespace HybridTM

/-- What a block does from a point on. -/
inductive Block where
  /-- It commits with a value. -/
  | commit (value : Word)
  /-- It gives up with an error. -/
  | giveUp (err : TxError)
  /-- It reads. -/
  | read (a : Addr) (mask : Mask) (next : Except TxError Word → Block)
  /-- It writes. -/
  | write (a : Addr) (v : Word) (mask : Mask) (next : Except TxError Unit → Block)

/-- An access of a block with the result it was given. -/
inductive BlockEvent where
  /-- A read. -/
  | read (a : Addr) (mask : Mask) (result : Except TxError Word)
  /-- A write. -/
  | write (a : Addr) (v : Word) (mask : Mask) (result : Except TxError Unit)

/-- How a block ended. -/
inductive BlockEnd where
  /-- It committed with a value. -/
  | committed (value : Word)
  /-- It did not commit as it wished. -/
  | refused (err : TxError)
  /-- It gave up. -/
  | abandoned (err : TxError)

/-- What is seen of a block. -/
structure BlockReport where
  /-- Its accesses. -/
  events : List BlockEvent
  /-- How it ended. -/
  ending : BlockEnd
  /-- The memory it left behind. -/
  memory : Memory

namespace Block

/-! ## The plain model -/

/-- The accesses of a block on memory in place, the memory they make, and what the block wishes in
the end. -/
def plain : Block → Memory → List BlockEvent × Memory × Except TxError Word
  | .commit value, view => ([], view, .ok value)
  | .giveUp err, view => ([], view, .error err)
  | .read a mask next, view =>
      let result := .ok (view.read a &&& mask)
      let (events, rest) := (next result).plain view
      (.read a mask result :: events, rest)
  | .write a v mask next, view =>
      let (events, rest) := (next (.ok ())).plain (view.store a v mask)
      (.write a v mask (.ok ()) :: events, rest)

/-- What is seen of a block on the plain model: a block that gives up leaves memory as it was. -/
def report (b : Block) (m : Memory) : BlockReport :=
  match b.plain m with
  | (events, view, .ok value) => ⟨events, .committed value, view⟩
  | (events, _, .error err) => ⟨events, .abandoned err, m⟩

/-- What is seen of blocks that run one after the other on the plain model. -/
def reports : List Block → Memory → List BlockReport
  | [], _ => []
  | b :: bs, m => b.report m :: reports bs (b.report m).memory

/-- The number of reads that a block takes some bits from memory for, and of different words that it
writes, on top of the writes that are pending. -/
def footprint : Block → Memory → PendingWrites → Nat
  | .commit _, _, _ | .giveUp _, _, _ => 0
  | .read a mask next, view, M =>
      (if M.bits a &&& mask = mask then 0 else 1) +
        (next (.ok (view.read a &&& mask))).footprint view M
  | .write a v mask next, view, M =>
      (if a ∈ M.order then 0 else 1) +
        (next (.ok ())).footprint (view.store a v mask) (M.insert a v mask)

end Block

/-! ## Attempts -/

/-- How an attempt serves the accesses of its block. -/
structure BlockAccess (σ : Type) where
  /-- A read, which is not possible while it would have to wait. -/
  read : σ → Addr → Mask → Option (Except TxError Word × σ)
  /-- A write. -/
  write : σ → Addr → Word → Mask → Except TxError Unit × σ

/-- The accesses of a block in an attempt, the attempt after them, and what the block wishes in the
end. -/
def Block.drive {σ : Type} (A : BlockAccess σ) :
    Block → σ → Option (List BlockEvent × σ × Except TxError Word)
  | .commit value, s => some ([], s, .ok value)
  | .giveUp err, s => some ([], s, .error err)
  | .read a mask next, s => do
      let (result, s) ← A.read s a mask
      let (events, rest) ← (next result).drive A s
      some (.read a mask result :: events, rest)
  | .write a v mask next, s => do
      let (result, s) := A.write s a v mask
      let (events, rest) ← (next result).drive A s
      some (.write a v mask result :: events, rest)

/-- The accesses of a software transaction. -/
def Transaction.access (s : Shared) : BlockAccess Transaction where
  read tx a mask := tx.read s a mask
  write tx a v mask := (.ok (), tx.write a v mask)

/-- The accesses of a hardware region. -/
def Region.access (b : Backend) (m : Memory) : BlockAccess Region where
  read r a mask :=
    let (result, r) := b.read r m a mask
    some (result.mapError .hardware, r)
  write r a v mask :=
    let (result, r) := b.write r a v mask
    (result.mapError .hardware, r)

/-- The steps that an execution takes by itself, up to a number. -/
def Execution.settle : Nat → Execution → Backend → Memory → Execution × Backend × Memory
  | 0, x, b, m => (x, b, m)
  | n + 1, x, b, m =>
      match x.advance b m with
      | none => (x, b, m)
      | some (x, b, m) => settle n x b m

/-! ## Machines -/

/-- Where blocks run: memory and clock, transactions that are used again and again, and a source of
hardware regions. -/
structure BlockMachine where
  /-- Memory and clock. -/
  shared : Shared
  /-- The transactions. -/
  tx : Nat → Transaction
  /-- The source of hardware regions. -/
  backend : Backend

/-- A block with the path it is to take and the transaction that it uses on the software paths. -/
structure Task where
  /-- The block. -/
  block : Block
  /-- The path. -/
  path : Path
  /-- The transaction. -/
  tx : Nat

namespace BlockMachine

/-- A new machine over a memory, with an emulator of hardware regions. -/
def new (capacity : Nat) (m : Memory) : BlockMachine where
  shared := ⟨m, .zero⟩
  tx _ := .idle .zero
  backend := .emulated (.withCapacity capacity)

/-- The machine after a transaction was used. -/
def put (s : BlockMachine) (i : Nat) (tx : Transaction) (shared : Shared) : BlockMachine :=
  { s with shared, tx := Function.update s.tx i tx }

/-- Run a block in an attempt that has just begun. An attempt that is not committed is rolled
back. -/
def runAttempt (s : BlockMachine) (b : Block) (i : Nat) (tx : Transaction) (clock : Clock) :
    Option (BlockReport × BlockMachine) := do
  let shared := { s.shared with clock }
  let (events, tx, wish) ← b.drive (Transaction.access shared) tx
  match wish with
  | .error err =>
      let (tx, clock) := tx.rollback shared.clock
      some (⟨events, .abandoned err, shared.memory⟩, s.put i tx { shared with clock })
  | .ok value =>
      let (result, tx, shared) ← tx.commit shared
      match result with
      | .ok _ => some (⟨events, .committed value, shared.memory⟩, s.put i tx shared)
      | .error err =>
          let (tx, clock) := tx.rollback shared.clock
          some (⟨events, .refused err, shared.memory⟩, s.put i tx { shared with clock })

/-- Run a block as a hardware region. -/
def runRegion (s : BlockMachine) (b : Block) : Option (BlockReport × BlockMachine) :=
  -- One step leads into the region, and at most three out of it.
  match Execution.settle 1 .starting s.backend s.shared.memory with
  | (.running r, backend, memory) => do
      let (events, r, wish) ← b.drive (Region.access backend memory) r
      let (x, backend, memory) := (Execution.endBody r wish).settle 3 backend memory
      let s := { s with shared := { s.shared with memory }, backend }
      match wish, x with
      | .error err, _ => some (⟨events, .abandoned err, memory⟩, s)
      | .ok _, .done (.ok value) => some (⟨events, .committed value, memory⟩, s)
      | .ok _, .done (.error abort) => some (⟨events, .refused (.hardware abort), memory⟩, s)
      | .ok _, _ => none
  | (.done (.error abort), backend, memory) =>
      some (⟨[], .refused (.hardware abort), memory⟩,
        { s with shared := { s.shared with memory }, backend })
  | _ => none

/-- Run a block on its path. -/
def runTask (s : BlockMachine) (t : Task) : Option (BlockReport × BlockMachine) :=
  match t.path with
  | .hardware => s.runRegion t.block
  | .software => s.runAttempt t.block t.tx ((s.tx t.tx).begin s.shared.clock) s.shared.clock
  | .serial => do
      let (tx, clock) ← (s.tx t.tx).beginSerial s.shared.clock
      s.runAttempt t.block t.tx tx clock
  | .glock =>
      s.runAttempt t.block t.tx ((s.tx t.tx).beginExclusive s.shared.clock) s.shared.clock

/-- Run blocks one after the other. -/
def run (s : BlockMachine) : List Task → Option (List BlockReport × BlockMachine)
  | [] => some ([], s)
  | t :: ts => do
      let (report, s) ← s.runTask t
      let (reports, s) ← s.run ts
      some (report :: reports, s)

end BlockMachine

/-! ## Accesses that follow the plain model -/

/-- Each access of an attempt gives what the plain model gives, and leads to an attempt of which the
same can be said. The relation may depend on what is left of the block, and on the memory that the
block sees. -/
structure BlockAccess.Follows {σ : Type} (A : BlockAccess σ) (I : Block → Memory → σ → Prop) :
    Prop where
  /-- A read succeeds. -/
  read : ∀ {a mask next view s}, I (.read a mask next) view s →
    ∃ s', A.read s a mask = some (.ok (view.read a &&& mask), s') ∧
      I (next (.ok (view.read a &&& mask))) view s'
  /-- A write succeeds. -/
  write : ∀ {a v mask next view s}, I (.write a v mask next) view s →
    ∃ s', A.write s a v mask = (.ok (), s') ∧ I (next (.ok ())) (view.store a v mask) s'

/-- A block in an attempt that follows the plain model does what it does there. -/
theorem Block.drive_eq_plain {σ : Type} {A : BlockAccess σ} {I : Block → Memory → σ → Prop}
    (F : A.Follows I) {b : Block} {view : Memory} {s : σ} (h : I b view s) :
    ∃ s' b', b.drive A s = some ((b.plain view).1, s', (b.plain view).2.2) ∧
      I b' (b.plain view).2.1 s' := by
  induction b generalizing view s with
  | commit value => exact ⟨s, _, rfl, h⟩
  | giveUp err => exact ⟨s, _, rfl, h⟩
  | read a mask next ih =>
    obtain ⟨s₁, hread, h₁⟩ := F.read h
    obtain ⟨s₂, b', hdrive, h₂⟩ := ih _ h₁
    refine ⟨s₂, b', ?_, h₂⟩
    simp only [drive, hread, hdrive, Option.bind_eq_bind, Option.bind_some]
    rfl
  | write a v mask next ih =>
    obtain ⟨s₁, hwrite, h₁⟩ := F.write h
    obtain ⟨s₂, b', hdrive, h₂⟩ := ih _ h₁
    refine ⟨s₂, b', ?_, h₂⟩
    simp only [drive, hwrite, hdrive, Option.bind_eq_bind, Option.bind_some]
    rfl

end HybridTM
