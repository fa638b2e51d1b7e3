import HybridTM.Hardware.Faults
import HybridTM.Hardware.Status
import HybridTM.Log.Reads
import HybridTM.Log.Writes

/-!
# Emulated hardware regions

A region buffers its writes and logs the values it reads. A version that advances by two
with every publication tells it when memory may have changed: it then compares its log
with memory and, if some of it is not current, is doomed by a conflict. A doomed region
fails every further access and never commits. The footprint, reads logged and words
written together, is limited; the access that would exceed the limit dooms the region.

Every function is one atomic step.
-/

namespace HybridTM

/-- An emulator of hardware regions. -/
structure Emulator where
  /-- Advances by two with every publication. -/
  version : UInt64
  /-- The largest footprint of a region. -/
  capacity : Nat
  /-- The faults to inject. -/
  faults : Faults
  /-- The number of regions started. -/
  started : UInt64
  /-- The number of regions committed. -/
  committed : UInt64

/-- A running region. -/
structure Region where
  /-- The version that all reads so far agree with. -/
  start : UInt64
  /-- What was read from memory. -/
  reads : ReadLog
  /-- What is to be written. -/
  writes : WriteLog
  /-- Why the region cannot commit any more. -/
  doomed : Option HardwareAbort

namespace Emulator

/-- The footprint limit of an emulator that was given none. -/
def defaultCapacity : Nat := 512

/-- An emulator with a footprint limit of at least one. -/
def withCapacity (capacity : Nat) : Emulator where
  version := 0
  capacity := max capacity 1
  faults := .none
  started := 0
  committed := 0

/-- Start a region, unless a fault aborts it first. -/
def enter (h : Emulator) : Except HardwareAbort Region × Emulator :=
  let (forced, faults) := h.faults.takeForced
  let h := { h with started := h.started + 1, faults }
  match forced with
  | some abort => (.error abort, h)
  | none => (.ok ⟨h.version, .empty, .empty, none⟩, h)

/-- The emulator after a publication. -/
def publish (h : Emulator) : Emulator := { h with version := h.version + 2 }

/-- Compare-and-swap a word that regions may have read. It counts as a publication
whether or not it changes the word. -/
def compareExchange (h : Emulator) (m : Memory) (a : Addr) (current new : Word) :
    Except Word Word × Emulator × Memory :=
  let (seen, m) := m.compareExchange a current new
  (seen, h.publish, m)

end Emulator

namespace Region

/-- Doom a region. -/
def doom (r : Region) (abort : HardwareAbort) : Region := { r with doomed := some abort }

/-- Whether the footprint of a region leaves no room. -/
def isFull (r : Region) (h : Emulator) : Bool := h.capacity ≤ r.reads.size + r.writes.size

/-- Move the start of a region up to the current version, if its reads are current. -/
def revalidate? (r : Region) (h : Emulator) (m : Memory) : Option Region :=
  if h.version = r.start then some r
  else if r.reads.isConsistent m then some { r with start := h.version }
  else none

/-- Read the masked bits of the word at `a`; the other bits of the result are zero. -/
def read (r : Region) (h : Emulator) (m : Memory) (a : Addr) (mask : Mask) :
    Except HardwareAbort Word × Region :=
  match r.doomed with
  | some abort => (.error abort, r)
  | none =>
      let (buffered, covered) := r.writes.lookup a mask
      if covered = mask then
        (.ok (buffered &&& mask), r)
      else if r.isFull h then
        (.error .capacity, r.doom .capacity)
      else
        -- The log is compared first, so that the value joins reads that all still hold.
        let remaining := mask &&& ~~~covered
        match r.revalidate? h m with
        | none => (.error .conflict, r.doom .conflict)
        | some r =>
            let value := m.read a
            (.ok (merge (value &&& remaining) buffered covered),
              { r with reads := r.reads.record a value remaining })

/-- Buffer a write of the masked bits of `v` to the word at `a`. -/
def write (r : Region) (h : Emulator) (a : Addr) (v : Word) (mask : Mask) :
    Except HardwareAbort Unit × Region :=
  match r.doomed with
  | some abort => (.error abort, r)
  | none =>
      -- Only the first write to a word enlarges the footprint.
      if (r.writes.find? a).isNone && r.isFull h then
        (.error .capacity, r.doom .capacity)
      else
        (.ok (), { r with writes := r.writes.insert a v mask })

/-- Abort the region with a code. -/
def abort (r : Region) (code : UInt8) : HardwareAbort × Region :=
  (.explicit code, r.doom (.explicit code))

/-- The abort of a region whose body failed. The first cause inside the region counts. -/
def failure (r : Region) (err : TxError) : HardwareAbort := r.doomed.getD err.toAbort

end Region

/-- Commit a region: if its reads are current, all of its writes appear at once. -/
def Emulator.commit (h : Emulator) (r : Region) (m : Memory) :
    Except HardwareAbort (Emulator × Memory) :=
  if r.reads.isConsistent m then
    let h := { h with committed := h.committed + 1 }
    .ok (if r.writes.isEmpty then (h, m) else (h.publish, r.writes.writeBack m))
  else
    .error .conflict

end HybridTM
