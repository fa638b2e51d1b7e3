import HybridTM.Text

/-!
# Aborts

Why an attempt at a transaction failed. A hardware abort carries a reason and the
hardware's hint whether a retry may succeed. `isPersistent` and `isRetryable` say whether
another attempt on the same path is worth making.
-/

namespace HybridTM

/-- Why a hardware region aborted. -/
inductive AbortReason where
  /-- Another agent touched a word of the region's footprint. -/
  | conflict
  /-- The footprint outgrew the hardware's buffers. -/
  | capacity
  /-- The region aborted itself with a code. -/
  | explicit (code : UInt8)
  /-- A debug breakpoint was hit. -/
  | debug
  /-- The abort happened in a nested region. -/
  | nested
  /-- There are no hardware regions. -/
  | unsupported
  /-- No reason was given. -/
  | unknown
  deriving DecidableEq, Repr

/-- An abort of a hardware region. -/
structure HardwareAbort where
  /-- Why the region aborted. -/
  reason : AbortReason
  /-- The hardware's hint that a retry may succeed. -/
  mayRetry : Bool
  deriving DecidableEq, Repr

/-- Why an attempt at a transaction failed. -/
inductive TxError where
  /-- The read set disagrees with memory. -/
  | validationFailure
  /-- A conflicting writer committed first. -/
  | commitRace
  /-- A hardware region aborted. -/
  | hardware (abort : HardwareAbort)
  /-- As many validation failures in a row as are allowed. -/
  | exhausted (failures : UInt32)
  deriving DecidableEq, Repr

namespace AbortReason

/-- The wording of a reason. The code of an explicit abort has two hexadecimal digits. -/
def message : AbortReason → String
  | .conflict => "conflict"
  | .capacity => "capacity"
  | .explicit code => "explicit(0x" ++ hexText 2 code.toNat ++ ")"
  | .debug => "debug"
  | .nested => "nested"
  | .unsupported => "unsupported"
  | .unknown => "unknown"

/-- The diagnostic text of a reason. -/
def text : AbortReason → String
  | .conflict => "Conflict"
  | .capacity => "Capacity"
  | .explicit code => wrapperText "Explicit" [toString code.toNat]
  | .debug => "Debug"
  | .nested => "Nested"
  | .unsupported => "Unsupported"
  | .unknown => "Unknown"

end AbortReason

namespace HardwareAbort

/-- The abort of a region that aborts itself with `code`. -/
def explicit (code : UInt8) : HardwareAbort := ⟨.explicit code, false⟩

/-- The abort of a region where there is no hardware for it. -/
def unsupported : HardwareAbort := ⟨.unsupported, false⟩

/-- The abort of a region whose footprint was overwritten. -/
def conflict : HardwareAbort := ⟨.conflict, true⟩

/-- The abort of a region whose footprint is too large. -/
def capacity : HardwareAbort := ⟨.capacity, false⟩

/-- Whether a retry in hardware is unlikely to help. Too large a footprint and missing
hardware stay as they are, an explicit abort is the program's own choice, and for every
other reason the hint of the hardware decides. -/
def isPersistent (a : HardwareAbort) : Bool :=
  match a.reason with
  | .capacity | .unsupported => true
  | .explicit _ => false
  | _ => !a.mayRetry

/-- Whether the footprint was too large. -/
def isCapacity (a : HardwareAbort) : Bool := a.reason == .capacity

/-- The code of an explicit abort. -/
def explicitCode? (a : HardwareAbort) : Option UInt8 :=
  match a.reason with
  | .explicit code => some code
  | _ => none

/-- The wording of an abort. -/
def message (a : HardwareAbort) : String :=
  "hardware transaction aborted: " ++ a.reason.message ++
    " (may retry: " ++ boolText a.mayRetry ++ ")"

/-- The diagnostic text of an abort. -/
def text (a : HardwareAbort) : String :=
  recordText "HardwareAbort" [("reason", a.reason.text), ("may_retry", boolText a.mayRetry)]

end HardwareAbort

namespace TxError

/-- Whether another attempt on the same path may succeed. -/
def isRetryable : TxError → Bool
  | .validationFailure | .commitRace => true
  | .hardware abort => !abort.isPersistent
  | .exhausted _ => false

/-- The wording of a failure. -/
def message : TxError → String
  | .validationFailure => "read set failed validation"
  | .commitRace => "lost the commit race to a conflicting writer"
  | .hardware abort => abort.message
  | .exhausted failures => toString failures.toNat ++ " consecutive validation failures"

end TxError

end HybridTM
