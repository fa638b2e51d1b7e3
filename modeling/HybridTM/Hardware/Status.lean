import HybridTM.Abort

/-!
# Abort codes and status words

A processor reports an abort as a word of status bits. When several reasons are set the
most specific one counts: an explicit abort, then capacity, then a conflict, then a
breakpoint, then nesting.
-/

namespace HybridTM

namespace AbortCode

/-- The region found the runtime outside hardware mode. -/
def modeChanged : UInt8 := 0xA1

/-- The body of the region returned an error. -/
def user : UInt8 := 0xA2

end AbortCode

namespace HardwareAbort

/-- The abort that a status word reports. The code of an explicit abort is its highest
byte. -/
def ofStatus (bits : UInt32) : HardwareAbort where
  reason :=
    if bits &&& 1 ≠ 0 then .explicit (bits >>> 24).toUInt8
    else if bits &&& 8 ≠ 0 then .capacity
    else if bits &&& 4 ≠ 0 then .conflict
    else if bits &&& 16 ≠ 0 then .debug
    else if bits &&& 32 ≠ 0 then .nested
    else .unknown
  mayRetry := bits &&& 2 ≠ 0

/-- Whether the region aborted because the runtime was outside hardware mode. -/
def isModeChange (a : HardwareAbort) : Bool := a.explicitCode? == some AbortCode.modeChanged

end HardwareAbort

/-- The abort that an error of the body causes. An abort is passed on as it is. -/
def TxError.toAbort : TxError → HardwareAbort
  | .hardware abort => abort
  | _ => .explicit AbortCode.user

end HybridTM
