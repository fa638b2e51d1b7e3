import HybridTM.Hardware.Faults
import HybridTM.Proofs.Runs
import Mathlib.Order.Basic

/-!
# Orders to inject faults

A log of the orders to an injector, and of the executions that begin, says which abort the next
execution is to be forced into: the latest order about aborts decides, and an order for a number of
executions is used up by as many beginnings (`FaultLog.demanded`). The injector itself keeps the
number that is left, and drops it when an execution finds it at zero, one beginning late
(`FaultLog.left`).

An injector that does what it is told has these things as its log says (`Faults.Follows`). It is
armed just if there is a forced abort or a hook, so that not to look when it is not armed changes
nothing (`Faults.Follows.takeForced_eq`, `Faults.Follows.dueHook_eq`), and the next execution is
forced into just what is demanded (`Faults.Follows.begin`).
-/

set_option autoImplicit false

namespace HybridTM

/-- An order to an injector. -/
inductive FaultOrder where
  /-- Abort the next executions. -/
  | failNext (abort : HardwareAbort) (attempts : UInt64)
  /-- Abort all executions. -/
  | failAlways (abort : HardwareAbort)
  /-- Abort none. -/
  | clear
  /-- Call a hook before commits. -/
  | setHook (hook : Hook)
  /-- Call none. -/
  | clearHook
  deriving DecidableEq

namespace FaultOrder

/-- What an order does to the faults. -/
def apply : FaultOrder → Faults → Faults
  | .failNext abort attempts, f => f.failNext abort attempts
  | .failAlways abort, f => f.failAlways abort
  | .clear, f => f.clear
  | .setHook hook, f => f.setHook hook
  | .clearHook, f => f.clearHook

/-- An order is about aborts. -/
def isForcing : FaultOrder → Bool
  | .failNext _ _ | .failAlways _ | .clear => true
  | .setHook _ | .clearHook => false

/-- The hook that an order about hooks leaves, if any. -/
def hook? : FaultOrder → Option (Option Hook)
  | .setHook hook => some (some hook)
  | .clearHook => some none
  | .failNext _ _ | .failAlways _ | .clear => none

end FaultOrder

/-- What is logged of an injector and the executions. -/
inductive FaultEvent (ι : Type) where
  /-- An order is given. -/
  | told (order : FaultOrder)
  /-- An execution begins, or is forced into an abort. -/
  | begun (i : ι) (forced : Option HardwareAbort)
  /-- The body of an execution has returned a value, nothing has doomed its region, and the hook is
  looked for. -/
  | ready (i : ι)
  /-- The hook is called. -/
  | hooked (i : ι) (hook : Hook)
  deriving DecidableEq

namespace FaultEvent

variable {ι : Type}

/-- The order about aborts. -/
def forcing? : FaultEvent ι → Option FaultOrder
  | .told order => if order.isForcing then some order else none
  | _ => none

/-- The hook that an order about hooks leaves, if any. -/
def hook? : FaultEvent ι → Option (Option Hook)
  | .told order => order.hook?
  | _ => none

/-- An execution begins, or is forced into an abort. -/
def isBegun : FaultEvent ι → Bool
  | .begun _ _ => true
  | _ => false

/-- An execution is forced into an abort. -/
def isInjected : FaultEvent ι → Bool
  | .begun _ forced => forced.isSome
  | _ => false

/-- A hook is looked for or called. -/
def isLook : FaultEvent ι → Bool
  | .ready _ | .hooked _ _ => true
  | _ => false

end FaultEvent

/-! ## What a log demands -/

namespace FaultLog

variable {ι : Type} (log : List (FaultEvent ι)) {y : FaultEvent ι}

/-- The latest order about aborts. -/
def latest : Option FaultOrder := log.reverse.findSome? (·.forcing?)

/-- The executions that began since. -/
def begunSince : Nat := (log.rtakeWhile (·.forcing?.isNone)).countP (·.isBegun)

/-- The abort that the next execution is to be forced into. -/
def demanded : Option HardwareAbort :=
  match latest log with
  | some (.failAlways abort) => some abort
  | some (.failNext abort attempts) =>
      if begunSince log < attempts.toNat then some abort else none
  | _ => none

/-- What is left of the latest order about aborts. -/
def left : Option ForcedAbort :=
  match latest log with
  | some (.failAlways abort) => some ⟨abort, none⟩
  | some (.failNext abort attempts) =>
      if begunSince log ≤ attempts.toNat then
        some ⟨abort, some (.ofNat (attempts.toNat - begunSince log))⟩
      else none
  | _ => none

/-- The hook that is set. -/
def hook : Option Hook := (log.reverse.findSome? (·.hook?)).join

/-- The executions that began. -/
def started : Nat := log.countP (·.isBegun)

/-- The executions that were forced into an abort. -/
def injected : Nat := log.countP (·.isInjected)

variable {log}

theorem latest_concat : latest (log ++ [y]) = y.forcing?.or (latest log) :=
  findSome?_reverse_concat

theorem begunSince_concat : begunSince (log ++ [y]) =
    if y.forcing?.isSome = true then 0
    else begunSince log + if y.isBegun = true then 1 else 0 := by
  rw [begunSince, countP_rtakeWhile_concat]
  cases y.forcing? <;> rfl

theorem hook_concat : hook (log ++ [y]) = y.hook?.getD (hook log) := by
  rw [hook, findSome?_reverse_concat]
  cases y.hook? <;> rfl

theorem started_concat : started (log ++ [y]) =
    started log + if y.isBegun = true then 1 else 0 := countP_concat

theorem injected_concat : injected (log ++ [y]) =
    injected log + if y.isInjected = true then 1 else 0 := countP_concat

/-- An event that is no order about aborts and no beginning leaves what is left. -/
theorem left_concat (quiet : y.forcing? = none) (idle : y.isBegun = false) :
    left (log ++ [y]) = left log := by
  rw [left, latest_concat, begunSince_concat, quiet, idle]
  rfl

/-- As long as something is demanded, something is left. -/
theorem demanded_eq_none (h : left log = none) : demanded log = none := by
  unfold left at h
  unfold demanded
  split at h
  · cases h
  · split at h
    · cases h
    · next hspent => exact if_neg fun hlt => hspent hlt.le
  · rfl

/-- What is left when one more execution begins, and what it is forced into. -/
inductive Used : Option ForcedAbort → Option HardwareAbort → Option ForcedAbort → Prop
  /-- Nothing is left. -/
  | nothing : Used none none none
  /-- All executions are aborted. -/
  | always (abort : HardwareAbort) :
      Used (some ⟨abort, none⟩) (some abort) (some ⟨abort, none⟩)
  /-- The number has run out. -/
  | spent (abort : HardwareAbort) : Used (some ⟨abort, some 0⟩) none none
  /-- It has not. -/
  | counted (abort : HardwareAbort) {n : UInt64} (remains : n ≠ 0) :
      Used (some ⟨abort, some n⟩) (some abort) (some ⟨abort, some (n - 1)⟩)

theorem Used.unique {now next next' : Option ForcedAbort} {forced forced' : Option HardwareAbort}
    (U : Used now forced next) (V : Used now forced' next') : forced = forced' ∧ next = next' := by
  cases U with
  | nothing =>
    cases V
    exact ⟨rfl, rfl⟩
  | always abort =>
    cases V
    exact ⟨rfl, rfl⟩
  | spent abort =>
    cases V with
    | spent => exact ⟨rfl, rfl⟩
    | counted abort remains => exact absurd rfl remains
  | counted abort remains =>
    cases V with
    | spent => exact absurd rfl remains
    | counted => exact ⟨rfl, rfl⟩

/-- A beginning uses up what is left by what is demanded. -/
theorem used_begun (log : List (FaultEvent ι)) (i : ι) (forced : Option HardwareAbort) :
    Used (left log) (demanded log) (left (log ++ [.begun i forced])) := by
  have hlatest : latest (log ++ [.begun i forced]) = latest log := latest_concat
  have hbegun : begunSince (log ++ [.begun i forced]) = begunSince log + 1 := begunSince_concat
  rw [left, demanded, left, hlatest, hbegun]
  generalize begunSince log = k
  rcases latest log with _ | order
  · exact .nothing
  · cases order with
    | failAlways abort => exact .always abort
    | clear | setHook | clearHook => exact .nothing
    | failNext abort attempts =>
      have hsize := attempts.toNat_lt
      simp only
      -- Before the number has run out, when it has, and after the order was dropped.
      rcases lt_trichotomy k attempts.toNat with hlt | rfl | hgt
      · have hremains : UInt64.ofNat (attempts.toNat - k) ≠ 0 := by
          intro hzero
          rw [← UInt64.toNat_inj,
            UInt64.toNat_ofNat_of_lt' (show attempts.toNat - k < 2 ^ 64 by omega)] at hzero
          exact Nat.sub_ne_zero_of_lt hlt hzero
        have hless : UInt64.ofNat (attempts.toNat - (k + 1)) =
            UInt64.ofNat (attempts.toNat - k) - 1 := by
          rw [← Nat.sub_sub, UInt64.ofNat_sub (Nat.sub_pos_of_lt hlt)]
          rfl
        rw [if_pos hlt.le, if_pos hlt, if_pos (Nat.succ_le_of_lt hlt), hless]
        exact .counted abort hremains
      · rw [if_pos le_rfl, if_neg (lt_irrefl _), if_neg (Nat.not_succ_le_self _), Nat.sub_self]
        exact .spent abort
      · rw [if_neg hgt.not_ge, if_neg hgt.not_gt, if_neg (by omega)]
        exact .nothing

end FaultLog

/-! ## Injectors -/

namespace Faults

variable {ι : Type} {f : Faults} {log : List (FaultEvent ι)}

/-- An injector is as its log says. -/
structure Follows (f : Faults) (log : List (FaultEvent ι)) : Prop where
  /-- It is armed if there is a forced abort or a hook. -/
  armed : f.armed = (f.forced.isSome || f.hook.isSome)
  /-- The forced abort is what is left of the latest order. -/
  forced : f.forced = FaultLog.left log
  /-- The hook is the one that was set last. -/
  hook : f.hook = FaultLog.hook log
  /-- The aborts are counted. -/
  injected : f.injected = .ofNat (FaultLog.injected log)

/-- What an injector may do when an execution begins. -/
structure Takes (f : Faults) (forced : Option HardwareAbort) (f' : Faults) : Prop where
  /-- It uses up what is left. -/
  used : FaultLog.Used f.forced forced f'.forced
  /-- It stays armed if there is a forced abort or a hook. -/
  armed : f'.armed = (f'.forced.isSome || f'.hook.isSome)
  /-- The hook stays. -/
  hook : f'.hook = f.hook
  /-- An abort is counted. -/
  injected : f'.injected = f.injected + if forced.isSome = true then 1 else 0

namespace Follows

theorem none : Faults.none.Follows ([] : List (FaultEvent ι)) := ⟨rfl, rfl, rfl, rfl⟩

/-- Where nothing is armed, nothing is set. -/
theorem unarmed (F : f.Follows log) (h : f.armed = false) : f.forced = .none ∧ f.hook = .none := by
  have armed := F.armed
  rw [h, eq_comm, Bool.or_eq_false_iff, Option.isSome_eq_false_iff, Option.isSome_eq_false_iff,
    Option.isNone_iff_eq_none, Option.isNone_iff_eq_none] at armed
  exact armed

/-- What is demanded or set arms an injector. -/
theorem armed_of_demand (F : f.Follows log) (h : (FaultLog.demanded log).isSome = true ∨
    (FaultLog.hook log).isSome = true) : f.armed = true := by
  by_contra hunarmed
  obtain ⟨hforced, hhook⟩ := F.unarmed (Bool.not_eq_true _ ▸ hunarmed)
  rw [F.forced] at hforced
  rw [F.hook] at hhook
  rw [FaultLog.demanded_eq_none hforced, hhook] at h
  exact h.elim nofun nofun

/-- So there is nothing to find where it is not looked. -/
theorem takeForced_eq (F : f.Follows log) :
    f.takeForced.1 = { f with armed := true }.takeForced.1 := by
  cases armed : f.armed with
  | true =>
    have heta : { f with armed := true } = f := by rw [← armed]
    rw [heta]
  | false =>
    simp only [takeForced, armed, (F.unarmed armed).1]
    rfl

theorem dueHook_eq (F : f.Follows log) : f.dueHook = f.hook := by
  unfold dueHook
  split
  · rfl
  · next armed => exact (F.unarmed (Bool.not_eq_true _ ▸ armed)).2.symm

/-- To look for a hook and to call it changes nothing. -/
theorem look (F : f.Follows log) {events : List (FaultEvent ι)}
    (looks : ∀ y ∈ events, y.isLook = true) : f.Follows (log ++ events) := by
  induction events generalizing log with
  | nil => rwa [List.append_nil]
  | cons y events ih =>
    have hy : y.forcing? = .none ∧ y.hook? = .none ∧ y.isBegun = false ∧ y.isInjected = false := by
      have := looks y List.mem_cons_self
      cases y with
      | ready | hooked => exact ⟨rfl, rfl, rfl, rfl⟩
      | told | begun => cases this
    obtain ⟨quiet, hookless, idle, harmless⟩ := hy
    have F' : f.Follows (log ++ [y]) := by
      refine ⟨F.armed, F.forced.trans (FaultLog.left_concat quiet idle).symm, ?_, ?_⟩
      · rw [FaultLog.hook_concat, hookless]
        exact F.hook
      · rw [FaultLog.injected_concat, harmless]
        exact F.injected
    rw [List.append_cons]
    exact ih F' fun z hz => looks z (List.mem_cons_of_mem y hz)

/-- An injector follows every order. -/
theorem tell (F : f.Follows log) (order : FaultOrder) :
    (order.apply f).Follows (log ++ [.told order]) := by
  have hinjected : FaultLog.injected (log ++ [.told order]) = FaultLog.injected log :=
    FaultLog.injected_concat
  have hhook : FaultLog.hook (log ++ [.told order]) = order.hook?.getD (FaultLog.hook log) :=
    FaultLog.hook_concat
  have hbegun : FaultLog.begunSince (log ++ [.told order]) =
      if (FaultEvent.told order : FaultEvent ι).forcing?.isSome = true then 0
      else FaultLog.begunSince log := FaultLog.begunSince_concat
  rw [← F.hook] at hhook
  have injected := F.injected
  rw [← hinjected] at injected
  cases order with
  | failNext abort attempts =>
    have hbegun : FaultLog.begunSince (log ++ [.told (.failNext abort attempts)]) = 0 := hbegun
    refine ⟨rfl, ?_, hhook.symm, injected⟩
    rw [FaultLog.left, FaultLog.latest_concat, hbegun]
    show _ = if 0 ≤ attempts.toNat then _ else _
    rw [if_pos (Nat.zero_le _), Nat.sub_zero, UInt64.ofNat_toNat]
    rfl
  | failAlways abort =>
    refine ⟨rfl, ?_, hhook.symm, injected⟩
    rw [FaultLog.left, FaultLog.latest_concat]
    rfl
  | clear =>
    refine ⟨rfl, ?_, hhook.symm, injected⟩
    rw [FaultLog.left, FaultLog.latest_concat]
    rfl
  | setHook hook | clearHook =>
    exact ⟨rfl, F.forced.trans (FaultLog.left_concat rfl rfl).symm, hhook.symm, injected⟩

/-- It does so, armed or not. -/
theorem takes (F : f.Follows log) : f.Takes f.takeForced.1 f.takeForced.2 := by
  have armed := F.armed
  cases hforced : f.forced with
  | none =>
    have htake : f.takeForced = (.none, f) := by
      unfold takeForced
      rw [hforced]
      split <;> rfl
    rw [htake]
    exact ⟨by rw [hforced]; exact .nothing, armed, rfl, (UInt64.add_zero _).symm⟩
  | some left =>
    obtain ⟨abort, n⟩ := left
    rw [hforced, Option.isSome_some, Bool.true_or] at armed
    have htake : f.takeForced = if n = some 0 then (.none, { f with forced := .none }.rearm)
        else (some abort,
          { f with forced := some ⟨abort, n.map (· - 1)⟩, injected := f.injected + 1 }) := by
      rw [takeForced, if_pos armed, hforced]
    rw [htake]
    -- A number of zero is noticed only here, by an execution that it does not abort.
    split
    · next hspent =>
      subst hspent
      exact ⟨by rw [hforced]; exact .spent abort, rfl, rfl, (UInt64.add_zero _).symm⟩
    · next hleft =>
      refine ⟨?_, armed, rfl, rfl⟩
      rw [hforced]
      cases n with
      | none => exact .always abort
      | some n => exact .counted abort fun h => hleft (congrArg some h)

/-- The next execution is forced into what is demanded. -/
theorem begin (F : f.Follows log) (i : ι) : f.takeForced.1 = FaultLog.demanded log ∧
    f.takeForced.2.Follows (log ++ [.begun i f.takeForced.1]) := by
  obtain ⟨used, armed, hook, injected⟩ := F.takes
  generalize f.takeForced.1 = forced, f.takeForced.2 = f' at *
  rw [F.forced] at used
  obtain ⟨hdemanded, hleft⟩ := used.unique (FaultLog.used_begun log i forced)
  have hinjected : FaultLog.injected (log ++ [.begun i forced]) =
      FaultLog.injected log + if forced.isSome = true then 1 else 0 := FaultLog.injected_concat
  refine ⟨hdemanded, armed, hleft, ?_, ?_⟩
  · rw [hook, F.hook, FaultLog.hook_concat]
    rfl
  · rw [injected, hinjected, F.injected]
    split
    · exact (UInt64.ofNat_add ..).symm
    · exact UInt64.add_zero _

end Follows

end Faults

end HybridTM
