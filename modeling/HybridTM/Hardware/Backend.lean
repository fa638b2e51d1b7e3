import HybridTM.Hardware.Emulator

/-!
# Hardware backends

Where hardware regions come from: nowhere, or from an emulator. Without hardware every
region aborts as unsupported, and a compare-and-swap is a plain one.
-/

namespace HybridTM

/-- A source of hardware regions. -/
inductive Backend where
  /-- There are no hardware regions. -/
  | none
  /-- Regions are emulated. -/
  | emulated (h : Emulator)

namespace Backend

/-- The name of a backend. -/
def name : Backend → String
  | .none => "none"
  | .emulated _ => "emulated"

/-- Whether regions can ever commit. -/
def isSupported : Backend → Bool
  | .none => false
  | .emulated _ => true

/-- The emulator. -/
def emulator? : Backend → Option Emulator
  | .none => .none
  | .emulated h => some h

/-- Change the faults of an emulator. -/
def modifyFaults (b : Backend) (f : Faults → Faults) : Backend :=
  match b with
  | .none => .none
  | .emulated h => .emulated { h with faults := f h.faults }

/-- Start a region. -/
def enter : Backend → Except HardwareAbort Region × Backend
  | .none => (.error .unsupported, .none)
  | .emulated h =>
      let (region, h) := h.enter
      (region, .emulated h)

/-- Compare-and-swap a word that regions may have read. -/
def compareExchange (b : Backend) (m : Memory) (a : Addr) (current new : Word) :
    Except Word Word × Backend × Memory :=
  match b with
  | .none =>
      let (seen, m) := m.compareExchange a current new
      (seen, .none, m)
  | .emulated h =>
      let (seen, h, m) := h.compareExchange m a current new
      (seen, .emulated h, m)

/-- Commit a region. -/
def commit (b : Backend) (r : Region) (m : Memory) :
    Except HardwareAbort (Backend × Memory) :=
  match b with
  | .none => .error .unsupported
  | .emulated h => (h.commit r m).map fun (h, m) => (.emulated h, m)

/-- A region reads. -/
def read (b : Backend) (r : Region) (m : Memory) (a : Addr) (mask : Mask) :
    Except HardwareAbort Word × Region :=
  match b with
  | .none => (.error .unsupported, r)
  | .emulated h => r.read h m a mask

/-- A region writes. -/
def write (b : Backend) (r : Region) (a : Addr) (v : Word) (mask : Mask) :
    Except HardwareAbort Unit × Region :=
  match b with
  | .none => (.error .unsupported, r)
  | .emulated h => r.write h a v mask

/-- The hook to call before a commit. -/
def dueHook : Backend → Option Hook
  | .none => .none
  | .emulated h => h.faults.dueHook

end Backend

end HybridTM
