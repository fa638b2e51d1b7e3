import HybridTM.Memory

/-!
# Read logs

A transaction logs what it read: the word, the value it saw and the bits it asked for, in
the order of the reads and with repetitions. The log is consistent with memory when every
entry is current, that is, when memory still holds the logged bits.
-/

namespace HybridTM

/-- One logged read. -/
structure ReadEntry where
  /-- The word that was read. -/
  addr : Addr
  /-- The whole value the word had. -/
  value : Word
  /-- The bits the read covered. -/
  mask : Mask
  deriving DecidableEq, Repr

/-- Whether memory still holds the logged bits. -/
def ReadEntry.isCurrent (e : ReadEntry) (m : Memory) : Bool :=
  (m.read e.addr ^^^ e.value) &&& e.mask == 0

/-- The reads of a transaction, oldest first. -/
structure ReadLog where
  /-- The entries, oldest first. -/
  entries : Array ReadEntry

namespace ReadLog

/-- The log of a transaction that has read nothing. -/
def empty : ReadLog := ⟨#[]⟩

/-- The log after one more read. -/
def record (log : ReadLog) (a : Addr) (value : Word) (mask : Mask) : ReadLog :=
  ⟨log.entries.push ⟨a, value, mask⟩⟩

/-- Whether every logged read is current. -/
def isConsistent (log : ReadLog) (m : Memory) : Bool :=
  log.entries.all (·.isCurrent m)

/-- The number of logged reads. -/
def size (log : ReadLog) : Nat := log.entries.size

/-- Whether nothing was read. -/
def isEmpty (log : ReadLog) : Bool := log.entries.isEmpty

@[simp]
theorem size_empty : empty.size = 0 := rfl

@[simp]
theorem size_record (log : ReadLog) (a : Addr) (value : Word) (mask : Mask) :
    (log.record a value mask).size = log.size + 1 := by
  simp [size, record]

@[simp]
theorem isConsistent_empty (m : Memory) : empty.isConsistent m = true := by
  simp [isConsistent, empty]

@[simp]
theorem isConsistent_record (log : ReadLog) (a : Addr) (value : Word) (mask : Mask)
    (m : Memory) :
    (log.record a value mask).isConsistent m =
      (log.isConsistent m && (ReadEntry.mk a value mask).isCurrent m) := by
  simp [isConsistent, record]

end ReadLog

end HybridTM
