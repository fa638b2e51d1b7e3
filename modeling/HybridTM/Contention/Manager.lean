import HybridTM.Text

/-!
# Contention policies and managers

A policy says how a thread holds back when its software attempts keep failing. It is
configuration; each thread runs a manager built from it.

A manager is told when its thread begins, commits and aborts a software attempt. A
backoff manager keeps a window that doubles with every abort and bounds the random wait
after it. An hourglass manager counts aborts in a row and, from a threshold on, takes the
one token that all hourglass managers of an engine share; while it holds the token, the
others do not begin. Managers compose.

The token is part of the state that calls are given and return: `true` while it is held.
-/

namespace HybridTM

/-! ## Policies -/

/-- A configured contention policy. -/
inductive Policy where
  /-- Start the next attempt at once. -/
  | aggressive
  /-- Wait after an abort, up to a window that doubles from one bound to the other. -/
  | backoff (minSpins maxSpins : UInt32)
  /-- After this many aborts in a row, keep all other threads from beginning. -/
  | hourglass (threshold : UInt32)
  /-- Both of the above. -/
  | hourglassBackoff (threshold minSpins maxSpins : UInt32)
  deriving DecidableEq, Repr

/-- The policy of an engine that was given none. -/
def Policy.default : Policy := .backoff 4 1024

/-- The diagnostic text of a policy. -/
def Policy.text : Policy → String
  | .aggressive => "Aggressive"
  | .backoff lo hi =>
      recordText "Backoff" [("min_spins", toString lo.toNat), ("max_spins", toString hi.toNat)]
  | .hourglass n => recordText "Hourglass" [("threshold", toString n.toNat)]
  | .hourglassBackoff n lo hi =>
      recordText "HourglassBackoff" [("threshold", toString n.toNat),
        ("min_spins", toString lo.toNat), ("max_spins", toString hi.toNat)]

/-! ## The token -/

/-- Whether some thread holds the hourglass token. -/
abbrev Token := Bool

/-! ## Backoff -/

/-- The state of randomized exponential backoff. -/
structure Backoff where
  /-- The window after a commit. -/
  minSpins : UInt32
  /-- The largest window. -/
  maxSpins : UInt32
  /-- The window that bounds the next wait. -/
  window : UInt32
  deriving DecidableEq, Repr

namespace Backoff

/-- Backoff between two bounds. The lower bound is at least one, and the upper bound is
at least the lower. -/
def new (minSpins maxSpins : UInt32) : Backoff :=
  let lo := max minSpins 1
  { minSpins := lo, maxSpins := max maxSpins lo, window := lo }

/-- The waits, counted in spins, that may follow an abort: one of them is drawn at
random. -/
def Spins (b : Backoff) (n : Nat) : Prop := n ≤ b.window.toNat

/-- Twice a number, or the largest 32-bit number. -/
def double (n : UInt32) : UInt32 := UInt32.ofNat (min (n.toNat * 2) (UInt32.size - 1))

theorem toNat_double (n : UInt32) : (double n).toNat = min (n.toNat * 2) (UInt32.size - 1) :=
  UInt32.toNat_ofNat_of_lt' (by simp only [UInt32.size]; omega)

/-- The state after a commit. -/
def onCommit (b : Backoff) : Backoff := { b with window := b.minSpins }

/-- The state after an abort. -/
def onAbort (b : Backoff) : Backoff := { b with window := min (double b.window) b.maxSpins }

end Backoff

/-! ## Hourglass -/

/-- The state of one thread's hourglass. -/
structure Hourglass where
  /-- The aborts in a row after which the thread asks for the token. -/
  threshold : UInt32
  /-- The aborts since the last commit, up to the largest 32-bit number. -/
  aborts : UInt32
  /-- Whether this thread holds the token. -/
  holding : Bool
  deriving DecidableEq, Repr

namespace Hourglass

/-- An hourglass with a threshold of at least one. -/
def new (threshold : UInt32) : Hourglass :=
  { threshold := max threshold 1, aborts := 0, holding := false }

/-- Whether the thread may begin: it holds the token itself, or nobody does. -/
def mayBegin (h : Hourglass) (token : Token) : Bool := h.holding || !token

/-- Give the token back if this thread holds it. -/
def release (h : Hourglass) (token : Token) : Hourglass × Token :=
  if h.holding then ({ h with holding := false }, false) else (h, token)

/-- After a release the thread does not hold the token, whether or not it did before. -/
@[simp]
theorem holding_release (h : Hourglass) (token : Token) :
    (h.release token).1.holding = false := by
  unfold release
  split <;> simp_all

/-- Only the holder can free the token. -/
theorem token_release (h : Hourglass) (token : Token) :
    (h.release token).2 = if h.holding then false else token := by
  unfold release
  split <;> rfl

/-- The state after a commit. -/
def onCommit (h : Hourglass) (token : Token) : Hourglass × Token :=
  { h with aborts := 0 }.release token

/-- The state after an abort. -/
def onAbort (h : Hourglass) (token : Token) : Hourglass × Token :=
  let h := { h with aborts := if h.aborts = 0xFFFFFFFF then h.aborts else h.aborts + 1 }
  if !h.holding && h.threshold ≤ h.aborts && !token then
    -- The own flag and the shared token change together.
    ({ h with holding := true }, true)
  else
    (h, token)

end Hourglass

/-! ## Managers -/

/-- The contention manager of one thread. -/
inductive Manager where
  /-- Never waits. -/
  | aggressive
  /-- Backs off after aborts. -/
  | backoff (state : Backoff)
  /-- Asks for the token after aborts. -/
  | hourglass (state : Hourglass)
  /-- Does what two managers do, one after the other, under a name of its own. -/
  | compose (first second : Manager) (name : String)
  deriving Repr

namespace Manager

/-- The name of a manager's policy. -/
def name : Manager → String
  | .aggressive => "aggressive"
  | .backoff _ => "backoff"
  | .hourglass _ => "hourglass"
  | .compose _ _ name => name

/-- Whether an attempt may begin now; otherwise the thread waits for the token. -/
def mayBegin : Manager → Token → Bool
  | .hourglass h, token => h.mayBegin token
  | .compose first second _, token => first.mayBegin token && second.mayBegin token
  | _, _ => true

/-- The manager and the token after a commit. -/
def onCommit : Manager → Token → Manager × Token
  | .aggressive, token => (.aggressive, token)
  | .backoff b, token => (.backoff b.onCommit, token)
  | .hourglass h, token =>
      let (h, token) := h.onCommit token
      (.hourglass h, token)
  | .compose first second name, token =>
      let (first, token) := first.onCommit token
      let (second, token) := second.onCommit token
      (.compose first second name, token)

/-- The manager and the token after an abort. -/
def onAbort : Manager → Token → Manager × Token
  | .aggressive, token => (.aggressive, token)
  | .backoff b, token => (.backoff b.onAbort, token)
  | .hourglass h, token =>
      let (h, token) := h.onAbort token
      (.hourglass h, token)
  | .compose first second name, token =>
      let (first, token) := first.onAbort token
      let (second, token) := second.onAbort token
      (.compose first second name, token)

/-- The token after the manager is dropped. -/
def drop : Manager → Token → Token
  | .hourglass h, token => (h.release token).2
  | .compose first second _, token => second.drop (first.drop token)
  | _, token => token

/-- The window of a backoff manager. -/
def window? : Manager → Option UInt32
  | .backoff b => some b.window
  | _ => none

/-- Whether an hourglass manager holds the token. -/
def holding? : Manager → Option Bool
  | .hourglass h => some h.holding
  | _ => none

end Manager

/-- The manager of one thread under a policy. -/
def Policy.build : Policy → Manager
  | .aggressive => .aggressive
  | .backoff lo hi => .backoff (.new lo hi)
  | .hourglass n => .hourglass (.new n)
  | .hourglassBackoff n lo hi =>
      .compose (.hourglass (.new n)) (.backoff (.new lo hi)) "hourglass+backoff"

end HybridTM
