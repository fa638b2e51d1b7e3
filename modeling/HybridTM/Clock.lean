import HybridTM.Word

/-!
# The commit clock

Software commits are ordered by one counter. An even value means that no commit is in
progress and is twice the number of publications so far; an odd value means that a
committer holds the clock. Taking the clock adds one, releasing it adds one more.

An operation that would have to wait for the clock answers `none` instead.
-/

namespace HybridTM

/-- A value of the clock. -/
abbrev Timestamp := UInt64

/-- The commit clock. -/
@[ext]
structure Clock where
  /-- The current value. -/
  now : Timestamp
  deriving DecidableEq, Repr

namespace Clock

/-- A clock before any commit. -/
def zero : Clock := ⟨0⟩

/-- The current value rounded down to even: the last published state. -/
def snapshot (c : Clock) : Timestamp := c.now &&& ~~~1

/-- Whether a committer holds the clock. -/
def isLocked (c : Clock) : Bool := c.now &&& 1 == 1

/-- The current value, once no committer holds the clock. -/
def unlocked? (c : Clock) : Option Timestamp :=
  if c.isLocked then none else some c.now

/-- Take the clock, provided that it still shows `expected`. -/
def lock? (c : Clock) (expected : Timestamp) : Option Clock :=
  if c.now = expected then some ⟨expected + 1⟩ else none

/-- Release the clock taken at `lockedAt`, publishing the next even value. -/
def unlock (_ : Clock) (lockedAt : Timestamp) : Clock := ⟨lockedAt + 2⟩

/-- The number of publications so far. -/
def commitCount (c : Clock) : Word := c.snapshot / 2

theorem unlocked?_eq_some_iff {c : Clock} {t : Timestamp} :
    c.unlocked? = some t ↔ c.isLocked = false ∧ c.now = t := by
  unfold unlocked?
  split <;> simp_all

theorem lock?_eq_some_iff {c d : Clock} {t : Timestamp} :
    c.lock? t = some d ↔ c.now = t ∧ d = ⟨t + 1⟩ := by
  unfold lock?
  split <;> simp_all [eq_comm]

end Clock

end HybridTM
