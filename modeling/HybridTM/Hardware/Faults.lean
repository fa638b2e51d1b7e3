import HybridTM.Abort

/-!
# Injected faults

An emulator can be told to abort its next regions, or all of them, before they run, and
to call a hook before every commit. One flag says whether there is anything to look for;
a count of forced aborts that has run out is removed when it is next looked at.
-/

namespace HybridTM

/-- The name of a commit hook. What the hook does is up to whoever set it. -/
abbrev Hook := Nat

/-- An abort that regions are forced into. -/
structure ForcedAbort where
  /-- The abort. -/
  abort : HardwareAbort
  /-- The regions still to be aborted, all of them if there is no number. -/
  remaining : Option UInt64
  deriving DecidableEq, Repr

/-- The faults to inject. -/
structure Faults where
  /-- Whether a forced abort or a hook is set. -/
  armed : Bool
  /-- The forced abort. -/
  forced : Option ForcedAbort
  /-- The hook to call before commits. -/
  hook : Option Hook
  /-- The number of aborts injected so far. -/
  injected : UInt64
  deriving DecidableEq, Repr

namespace Faults

/-- No faults. -/
def none : Faults := ⟨false, .none, .none, 0⟩

/-- Bring the flag up to date. -/
def rearm (f : Faults) : Faults := { f with armed := f.forced.isSome || f.hook.isSome }

/-- Abort the next `attempts` regions. -/
def failNext (f : Faults) (abort : HardwareAbort) (attempts : UInt64) : Faults :=
  { f with forced := some ⟨abort, some attempts⟩ }.rearm

/-- Abort every region. -/
def failAlways (f : Faults) (abort : HardwareAbort) : Faults :=
  { f with forced := some ⟨abort, .none⟩ }.rearm

/-- Force no aborts. -/
def clear (f : Faults) : Faults := { f with forced := .none }.rearm

/-- Call a hook before every commit. -/
def setHook (f : Faults) (hook : Hook) : Faults := { f with hook := some hook }.rearm

/-- Call no hook. -/
def clearHook (f : Faults) : Faults := { f with hook := .none }.rearm

/-- The abort to force on the region that is about to run. -/
def takeForced (f : Faults) : Option HardwareAbort × Faults :=
  if f.armed then
    match f.forced with
    | .none => (.none, f)
    | some ⟨abort, remaining⟩ =>
        if remaining = some 0 then
          -- The count has run out, and only now is it noticed.
          (.none, { f with forced := .none }.rearm)
        else
          (some abort,
            { f with
              forced := some ⟨abort, remaining.map (· - 1)⟩
              injected := f.injected + 1 })
  else
    (.none, f)

/-- The hook to call before a commit. -/
def dueHook (f : Faults) : Option Hook := if f.armed then f.hook else .none

/-- The diagnostic text of a forced abort. -/
def forcedText (a : ForcedAbort) : String :=
  recordText "ForcedAbort" [("abort", a.abort.text),
    ("remaining", optionText (a.remaining.map fun n => toString n.toNat))]

/-- The diagnostic text of faults. -/
def text (f : Faults) : String :=
  recordText "FaultInjector" [("forced", optionText (f.forced.map forcedText)),
    ("hook", boolText f.hook.isSome), ("injected", toString f.injected.toNat)]

end Faults

end HybridTM
