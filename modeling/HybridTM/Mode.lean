import HybridTM.Json.Basic
import HybridTM.Text
import HybridTM.Word

/-!
# Execution modes and the mode word

The whole runtime is in one of three modes: transactions run as hardware regions, in the
software engine, or one at a time under the global lock. One word holds the mode together
with the number of threads in software epochs of their own (deferred) and the number of
transactions that joined such an epoch (undeferred). The mode takes the two lowest bits
and each count 31 bits above it.

In data a mode is written as its name. An object of the name and `null` is read as well.
-/

namespace HybridTM

/-- The execution mode of the runtime. -/
inductive Mode where
  /-- Hardware regions. -/
  | hw
  /-- The software engine. -/
  | sw
  /-- One thread alone under the global lock. -/
  | glock
  deriving DecidableEq, Repr

namespace Mode

/-- The bits of a mode. -/
def bits : Mode → Nat
  | .hw => 0
  | .sw => 1
  | .glock => 2

/-- The mode of two bits. The pattern that no mode has is read as the global lock. -/
def ofBits (bits : Nat) : Mode :=
  match bits with
  | 0 => .hw
  | 1 => .sw
  | _ => .glock

@[simp]
theorem ofBits_bits (m : Mode) : ofBits m.bits = m := by
  cases m <;> rfl

theorem bits_lt (m : Mode) : m.bits < 3 := by
  cases m <;> decide

/-- The wording of a mode. -/
def message : Mode → String
  | .hw => "HW"
  | .sw => "SW"
  | .glock => "GLOCK"

/-- The diagnostic text of a mode. -/
def text : Mode → String
  | .hw => "Hw"
  | .sw => "Sw"
  | .glock => "Glock"

/-- The name of a mode in data. -/
def name : Mode → String
  | .hw => "hw"
  | .sw => "sw"
  | .glock => "glock"

/-- The mode of a name. -/
def ofName? : String → Option Mode
  | "hw" => some .hw
  | "sw" => some .sw
  | "glock" => some .glock
  | _ => none

@[simp]
theorem ofName?_name (m : Mode) : ofName? m.name = some m := by
  cases m <;> rfl

/-- The JSON form. -/
def toJson (m : Mode) : Json := .ofText m.name

/-- The mode that a JSON value stands for. -/
def ofJson? : Json → Option Mode
  | .string (some name) => ofName? name
  | .object [(some name, .null)] => ofName? name
  | _ => none

end Mode

/-- The contents of the mode word. -/
structure ModeSnapshot where
  /-- The mode. -/
  mode : Mode
  /-- The threads that run software epochs of their own. -/
  deferred : Nat
  /-- The transactions that joined an epoch. -/
  undeferred : Nat
  deriving DecidableEq, Repr

namespace ModeSnapshot

/-- The least number that does not fit in the 31 bits of a count. -/
def countLimit : Nat := 0x80000000

/-- The number that neither count exceeds. -/
def maxCount : Nat := countLimit - 1

/-- Hardware mode without software transactions. -/
def initial : ModeSnapshot := ⟨.hw, 0, 0⟩

/-- The word of a snapshot. -/
def encode (s : ModeSnapshot) : Word :=
  .ofNat (s.mode.bits + 4 * (s.deferred % countLimit) +
    4 * countLimit * (s.undeferred % countLimit))

/-- The snapshot of a word. -/
def decode (w : Word) : ModeSnapshot where
  mode := .ofBits (w.toNat % 4)
  deferred := w.toNat / 4 % countLimit
  undeferred := w.toNat / (4 * countLimit)

/-- Whether no software transaction is registered. -/
def isQuiescent (s : ModeSnapshot) : Bool := s.deferred == 0 && s.undeferred == 0

/-! ## Transitions -/

/-- Register a thread with an epoch of its own. -/
def enterDeferred? (s : ModeSnapshot) : Option ModeSnapshot :=
  if s.mode = .glock ∨ s.deferred = maxCount then none
  else some { s with deferred := s.deferred + 1 }

/-- Go from hardware to software once such a thread is registered. -/
def flipToSoftware? (s : ModeSnapshot) : Option ModeSnapshot :=
  if s.mode ≠ .hw ∨ s.deferred = 0 then none
  else some { s with mode := .sw }

/-- Register a transaction that joins a live epoch. -/
def enterUndeferred? (s : ModeSnapshot) : Option ModeSnapshot :=
  if s.mode ≠ .sw ∨ s.deferred = 0 ∨ s.undeferred = maxCount then none
  else some { s with undeferred := s.undeferred + 1 }

/-- Return to hardware when nobody is left. -/
def drain (s : ModeSnapshot) : ModeSnapshot :=
  if s.isQuiescent then { s with mode := .hw } else s

/-- Take a thread with an epoch of its own off the register. -/
def leaveDeferred? (s : ModeSnapshot) : Option ModeSnapshot :=
  if s.deferred = 0 then none
  else some ({ s with deferred := s.deferred - 1 } : ModeSnapshot).drain

/-- Take a transaction that joined an epoch off the register. -/
def leaveUndeferred? (s : ModeSnapshot) : Option ModeSnapshot :=
  if s.undeferred = 0 then none
  else some ({ s with undeferred := s.undeferred - 1 } : ModeSnapshot).drain

/-- The snapshot while the global lock is held. -/
def locked : ModeSnapshot := ⟨.glock, 0, 0⟩

/-- Take the global lock. -/
def acquireLock? (s : ModeSnapshot) : Option ModeSnapshot :=
  if s = initial then some locked else none

/-! ## Texts -/

/-- The wording of a snapshot. -/
def message (s : ModeSnapshot) : String :=
  s.mode.message ++ " (deferred " ++ toString s.deferred ++ ", undeferred " ++
    toString s.undeferred ++ ")"

/-- The diagnostic text of a snapshot. -/
def text (s : ModeSnapshot) : String :=
  recordText "ModeSnapshot" [("mode", s.mode.text), ("deferred", toString s.deferred),
    ("undeferred", toString s.undeferred)]

end ModeSnapshot

end HybridTM
