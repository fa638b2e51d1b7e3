import HybridTM.Contention.Manager
import HybridTM.Proofs.Runs
import Mathlib.Data.List.Basic
import Mathlib.Logic.Function.Basic

/-!
# Who holds the hourglass token

Any number of managers share one token. A manager, however it is composed, consists of simple parts,
and a call on it is a call on each of its parts, one after the other. Calls on other managers may
come in between (`ManagerPool`); if none does, the parts together do what the manager does
(`ManagerPool.run_whole`).

In every reachable state the token is held just if there is one hourglass that holds it. No other
hourglass frees it, and one that is told of an abort takes it just if the token is free and its
thread has aborted often enough since it last committed (`ManagerPool.ownership_of_reachable`).
-/

set_option autoImplicit false

namespace HybridTM

/-! ## Owners -/

/-- The token is held just if somebody holds it, and nobody else does then. -/
structure Owned {κ : Type} (token : Token) (holds : κ → Prop) : Prop where
  /-- Somebody holds it. -/
  held : token = true ↔ ∃ p, holds p
  /-- Nobody else does. -/
  unique : ∀ p q, holds p → holds q → p = q

/-- What one of them can do with the token: nothing, give it back, or take it while it is free. -/
inductive TokenMove (token token' : Token) (before after : Prop) : Prop
  /-- The token stays where it is. -/
  | stays (token : token' = token) (own : after ↔ before)
  /-- The holder gives it back. -/
  | freed (holder : before) (free : token' = false) (own : ¬ after)
  /-- It is taken. -/
  | taken (free : token = false) (held : token' = true) (own : after)

namespace Owned

variable {κ : Type} {token token' : Token} {holds holds' : κ → Prop}

theorem free (h : ∀ p, ¬ holds p) : Owned false holds where
  held := iff_of_false Bool.false_ne_true fun ⟨p, hp⟩ => h p hp
  unique p _ hp := absurd hp (h p)

/-- A move of one of them keeps the token with its owner. -/
theorem move (O : Owned token holds) (p : κ) (others : ∀ q, q ≠ p → (holds' q ↔ holds q))
    (own : TokenMove token token' (holds p) (holds' p)) : Owned token' holds' := by
  cases own with
  | stays htoken hown =>
    have same (q : κ) : holds' q ↔ holds q := by
      by_cases hq : q = p
      · exact hq ▸ hown
      · exact others q hq
    refine ⟨by rw [htoken, O.held]; exact exists_congr fun q => (same q).symm, fun q r hq hr => ?_⟩
    exact O.unique q r ((same q).1 hq) ((same r).1 hr)
  | freed holder hfree hown =>
    rw [hfree]
    refine .free fun q hq => ?_
    by_cases hqp : q = p
    · exact hown (hqp ▸ hq)
    · exact hqp (O.unique q p ((others q hqp).1 hq) holder)
  | taken hfree hheld hown =>
    have nobody (q : κ) : ¬ holds q := fun hq =>
      Bool.false_ne_true (hfree.symm.trans (O.held.2 ⟨q, hq⟩))
    have only (q : κ) (hq : holds' q) : q = p := by
      by_contra hqp
      exact nobody q ((others q hqp).1 hq)
    exact ⟨iff_of_true hheld ⟨p, hown⟩, fun q r hq hr => (only q hq).trans (only r hr).symm⟩

end Owned

/-! ## Calls on managers -/

/-- What a manager is told. -/
inductive ManagerCall where
  /-- An attempt is to begin. -/
  | begin
  /-- An attempt has committed. -/
  | commit
  /-- An attempt has aborted. -/
  | abort
  /-- The manager is dropped. -/
  | drop
  deriving DecidableEq

/-- The aborts in a row that the last calls told of. -/
def abortsInARow (calls : List ManagerCall) : Nat :=
  calls.foldl (fun n c => match c with
    | .abort => n + 1
    | .commit => 0
    | .begin | .drop => n) 0

namespace Manager

/-- The simple managers that a manager consists of, in the order in which they are told. -/
def parts : Manager → List Manager
  | .compose first second _ => first.parts ++ second.parts
  | .aggressive => [.aggressive]
  | .backoff b => [.backoff b]
  | .hourglass h => [.hourglass h]

/-- The manager and the token after a call; there is no manager once it was dropped. A call that has
to wait is not possible. -/
def tell (m : Manager) (token : Token) : ManagerCall → Option (Option Manager × Token)
  | .begin => if m.mayBegin token then some (some m, token) else none
  | .commit => some (some (m.onCommit token).1, (m.onCommit token).2)
  | .abort => some (some (m.onAbort token).1, (m.onAbort token).2)
  | .drop => some (none, m.drop token)

/-- Managers that are told of the same call, one after the other. -/
def tellAll (c : ManagerCall) : List Manager → Token → Option (List (Option Manager) × Token)
  | [], token => some ([], token)
  | m :: ms, token =>
      (m.tell token c).bind fun (m, token) =>
        (tellAll c ms token).map fun (ms, token) => (m :: ms, token)

/-- The manager is an hourglass that holds the token. -/
def IsHolder (m : Option Manager) : Prop := ∃ h, m = some (.hourglass h) ∧ h.holding = true

/-- Nobody has told the manager anything yet. -/
def IsNew : Manager → Prop
  | .aggressive => True
  | .backoff b => ∃ lo hi, b = .new lo hi
  | .hourglass h => ∃ threshold, h = .new threshold
  | .compose first second _ => first.IsNew ∧ second.IsNew

end Manager

/-- Managers that share a token. Part `k` of manager `i` is addressed as `(i, k)`. -/
structure ManagerPool (ι : Type) where
  /-- The token. -/
  token : Token
  /-- The number of parts of each manager. -/
  size : ι → Nat
  /-- The parts that were not dropped. -/
  part : ι × Nat → Option Manager
  /-- The call that is under way on a manager, and the part that is told next. -/
  underway : ι → Option (ManagerCall × Nat)
  /-- What each part was told, oldest first. -/
  told : ι × Nat → List ManagerCall

namespace ManagerPool

variable {ι : Type}

/-- Managers before any call. -/
def init (m : ι → Manager) : ManagerPool ι where
  token := false
  size i := (m i).parts.length
  part p := (m p.1).parts[p.2]?
  underway _ := none
  told _ := []

/-- The part that a call on a manager comes to next. A manager serves one call at a time. -/
def next (s : ManagerPool ι) (i : ι) (c : ManagerCall) : Option Nat :=
  match s.underway i with
  | none => some 0
  | some (c', k) => if c' = c then some k else none

/-- The part is an hourglass that holds the token. -/
def Holds (s : ManagerPool ι) (p : ι × Nat) : Prop := Manager.IsHolder (s.part p)

variable [DecidableEq ι]

/-- The state after a part was told of a call. -/
def after (s : ManagerPool ι) (p : ι × Nat) (c : ManagerCall) (m : Option Manager) (token : Token) :
    ManagerPool ι where
  token := token
  size := s.size
  part := Function.update s.part p m
  underway := Function.update s.underway p.1
    (if p.2 + 1 < s.size p.1 then some (c, p.2 + 1) else none)
  told := Function.update s.told p (s.told p ++ [c])

/-- A call on a manager goes on with the next part. -/
def step (s : ManagerPool ι) (i : ι) (c : ManagerCall) : Option (ManagerPool ι) := do
  let k ← s.next i c
  let m ← s.part (i, k)
  let (m, token) ← m.tell s.token c
  some (s.after (i, k) c m token)

/-- A call on some manager goes on. -/
def Step (s s' : ManagerPool ι) : Prop := ∃ i c, s.step i c = some s'

/-- The states that calls lead to from given managers. -/
def Reachable (m : ι → Manager) (s : ManagerPool ι) : Prop :=
  Relation.ReflTransGen Step (init m) s

/-- The state after steps in the given order, if all of them are possible. -/
def run (s : ManagerPool ι) : List (ι × ManagerCall) → Option (ManagerPool ι)
  | [] => some s
  | (i, c) :: steps => (s.step i c).bind fun s' => s'.run steps

/-- What holds of managers that were new at the beginning. -/
structure Ownership (m₀ : ι → Manager) (s : ManagerPool ι) : Prop where
  /-- The token is held just if exactly one hourglass holds it. -/
  held : s.token = true ↔ ∃! p, s.Holds p
  /-- No two hourglasses ever hold it. -/
  unique : ∀ p q, s.Holds p → s.Holds q → p = q
  /-- Only the hourglass that holds the token frees it, when it is told of a commit or dropped. -/
  spares : ∀ i c s', s.step i c = some s' → s.token = true → s'.token = false →
    ∃ k, s.next i c = some k ∧ s.Holds (i, k) ∧ ¬ s'.Holds (i, k) ∧ (c = .commit ∨ c = .drop)
  /-- It is taken by an hourglass that is told of an abort. -/
  taken : ∀ i c s', s.step i c = some s' → s.token = false → s'.token = true →
    ∃ k, s.next i c = some k ∧ ¬ s.Holds (i, k) ∧ s'.Holds (i, k) ∧ c = .abort
  /-- An hourglass that is told of an abort takes the token just if it does not hold it, the token
  is free, and its thread has aborted as often in a row as the threshold says, and once at least.
  No abort has to wait. -/
  takes : ∀ i k h, s.next i .abort = some k → s.part (i, k) = some (.hourglass h) →
    ∃ threshold s', (m₀ i).parts[k]? = some (.hourglass (.new threshold)) ∧
      s.step i .abort = some s' ∧
      (s.token = false ∧ s'.token = true ∧ s'.Holds (i, k) ↔
        ¬ s.Holds (i, k) ∧ s.token = false ∧
          max threshold.toNat 1 ≤ abortsInARow (s.told (i, k) ++ [.abort]))

end ManagerPool

/-! ## Hourglasses -/

theorem abortsInARow_concat (calls : List ManagerCall) (c : ManagerCall) :
    abortsInARow (calls ++ [c]) = match c with
      | .abort => abortsInARow calls + 1
      | .commit => 0
      | .begin | .drop => abortsInARow calls := by
  rw [abortsInARow, List.foldl_concat]
  rfl

namespace Hourglass

/-- The count of aborts after a further one. -/
def nextAborts (h : Hourglass) : UInt32 := if h.aborts = 0xFFFFFFFF then h.aborts else h.aborts + 1

/-- The count goes up to the largest number and stays there. -/
theorem toNat_nextAborts {h : Hourglass} {n : Nat} (hn : h.aborts.toNat = min n (UInt32.size - 1)) :
    h.nextAborts.toNat = min (n + 1) (UInt32.size - 1) := by
  have hlt := h.aborts.toNat_lt
  unfold nextAborts
  simp only [UInt32.size] at hn ⊢
  split
  · next hmax =>
    have : h.aborts.toNat = 4294967295 := by rw [hmax]; rfl
    omega
  · next hmax =>
    have : h.aborts.toNat ≠ 4294967295 := fun heq => hmax (UInt32.toNat_inj.1 heq)
    rw [UInt32.toNat_add, show UInt32.toNat 1 = 1 from rfl]
    omega

/-- The threshold is one at least. -/
theorem toNat_threshold_new (threshold : UInt32) :
    (new threshold).threshold.toNat = max threshold.toNat 1 := by
  show (if threshold ≤ 1 then 1 else threshold : UInt32).toNat = _
  have hone : UInt32.toNat 1 = 1 := rfl
  split
  · next hle =>
    rw [UInt32.le_iff_toNat_le, hone] at hle
    omega
  · next hle =>
    rw [UInt32.le_iff_toNat_le, hone] at hle
    omega

/-- An abort takes the token, or leaves it and who holds it alone. -/
theorem onAbort_cases (h : Hourglass) (token : Token) :
    (h.holding = false ∧ token = false ∧ h.threshold ≤ h.nextAborts ∧
        h.onAbort token = (⟨h.threshold, h.nextAborts, true⟩, true)) ∨
      (¬ (h.holding = false ∧ token = false ∧ h.threshold ≤ h.nextAborts) ∧
        h.onAbort token = (⟨h.threshold, h.nextAborts, h.holding⟩, token)) := by
  have hcond : (!h.holding && decide (h.threshold ≤ h.nextAborts) && !token) = true ↔
      h.holding = false ∧ token = false ∧ h.threshold ≤ h.nextAborts := by
    rw [Bool.and_eq_true, Bool.and_eq_true, Bool.not_eq_true', Bool.not_eq_true',
      decide_eq_true_iff, and_assoc, and_comm (a := token = false)]
  unfold onAbort
  rw [← nextAborts]
  by_cases htakes : h.holding = false ∧ token = false ∧ h.threshold ≤ h.nextAborts
  · exact Or.inl ⟨htakes.1, htakes.2.1, htakes.2.2, if_pos (hcond.2 htakes)⟩
  · exact Or.inr ⟨htakes, if_neg fun hc => htakes (hcond.1 hc)⟩

end Hourglass

/-! ## Calls on parts -/

/-- A manager is new when it was built from a policy. -/
theorem Policy.isNew_build (p : Policy) : p.build.IsNew := by
  cases p with
  | aggressive => trivial
  | backoff lo hi => exact ⟨lo, hi, rfl⟩
  | hourglass threshold => exact ⟨threshold, rfl⟩
  | hourglassBackoff threshold lo hi => exact ⟨⟨threshold, rfl⟩, ⟨lo, hi, rfl⟩⟩

namespace Manager

/-- A part of a manager that is new is a new manager and not composed. -/
theorem IsNew.part {m part : Manager} (new : m.IsNew) (h : part ∈ m.parts) :
    part.IsNew ∧ ∀ first second name, part ≠ .compose first second name := by
  induction m with
  | aggressive | backoff | hourglass =>
    obtain rfl := List.mem_singleton.1 h
    exact ⟨new, nofun⟩
  | compose first second name ih₁ ih₂ =>
    rcases List.mem_append.1 h with h | h
    · exact ih₁ new.1 h
    · exact ih₂ new.2 h

theorem tellAll_append (c : ManagerCall) (ms ms' : List Manager) (token : Token) :
    tellAll c (ms ++ ms') token = (tellAll c ms token).bind fun (told, token) =>
      (tellAll c ms' token).map fun (told', token) => (told ++ told', token) := by
  induction ms generalizing token with
  | nil => simp [tellAll]
  | cons m ms ih =>
    simp only [List.cons_append, tellAll, ih]
    rcases m.tell token c with _ | ⟨m', token'⟩
    · rfl
    · simp only [Option.bind_some]
      rcases tellAll c ms token' with _ | ⟨told, token''⟩
      · rfl
      · simp [Function.comp_def]

/-- What becomes of the parts of a manager. -/
def partsAfter (m : Manager) : Option Manager → List (Option Manager)
  | some m' => m'.parts.map some
  | none => m.parts.map fun _ => none

/-- The parts of a manager that are told one after the other do what the manager does. -/
theorem tellAll_parts (c : ManagerCall) (m : Manager) (token : Token) :
    tellAll c m.parts token = (m.tell token c).map fun (m', token) => (m.partsAfter m', token) := by
  induction m generalizing token with
  | aggressive => cases c <;> rfl
  | backoff b => cases c <;> rfl
  | hourglass h =>
    cases c with
    | begin => simp only [parts, tellAll, tell]; split <;> rfl
    | commit | abort | drop => rfl
  | compose first second name ih₁ ih₂ =>
    rw [parts, tellAll_append, ih₁]
    cases c with
    | begin =>
      by_cases hfirst : first.mayBegin token = true
      · by_cases hsecond : second.mayBegin token = true
        · simp [tell, ih₂, mayBegin, hfirst, hsecond, partsAfter, parts]
        · simp [tell, ih₂, mayBegin, hfirst, hsecond]
      · simp [tell, mayBegin, hfirst]
    | commit | abort => simp [tell, ih₂, onCommit, onAbort, partsAfter, parts]
    | drop => simp [tell, ih₂, drop, partsAfter, parts]

/-- The manager is simple. -/
def IsSimple (m : Manager) : Prop := ∀ first second name, m ≠ .compose first second name

/-- The manager is no hourglass. -/
def IsOther (m : Manager) : Prop := ∀ g, m ≠ .hourglass g

/-- What a call on a simple manager can do to it and to the token. -/
inductive Turn : Manager → Token → ManagerCall → Option Manager → Token → Prop
  /-- The token does not concern the manager. -/
  | other {m : Manager} {m' : Option Manager} {token : Token} {c : ManagerCall} (before : m.IsOther)
      (after : ∀ n, m' = some n → n.IsSimple ∧ n.IsOther) : Turn m token c m' token
  /-- An attempt may begin. -/
  | begin (g : Hourglass) {token : Token} (clear : g.holding = true ∨ token = false) :
      Turn (.hourglass g) token .begin (some (.hourglass g)) token
  /-- A commit gives the token back. -/
  | commit (g : Hourglass) {token : Token} :
      Turn (.hourglass g) token .commit (some (.hourglass ⟨g.threshold, 0, false⟩))
        (if g.holding then false else token)
  /-- An abort takes the token. -/
  | takes (g : Hourglass) (free : g.holding = false) (due : g.threshold ≤ g.nextAborts) :
      Turn (.hourglass g) false .abort (some (.hourglass ⟨g.threshold, g.nextAborts, true⟩)) true
  /-- An abort is counted. -/
  | counts (g : Hourglass) {token : Token}
      (early : ¬ (g.holding = false ∧ token = false ∧ g.threshold ≤ g.nextAborts)) :
      Turn (.hourglass g) token .abort (some (.hourglass ⟨g.threshold, g.nextAborts, g.holding⟩))
        token
  /-- A drop gives the token back. -/
  | drop (g : Hourglass) {token : Token} :
      Turn (.hourglass g) token .drop none (if g.holding then false else token)

variable {m : Manager} {m' : Option Manager} {token token' : Token} {c : ManagerCall}

/-- Every call on a simple manager is one of its turns. -/
theorem turn_of_tell (simple : m.IsSimple) (h : m.tell token c = some (m', token')) :
    Turn m token c m' token' := by
  cases m with
  | compose first second name => exact absurd rfl (simple first second name)
  | aggressive =>
    cases c <;> obtain ⟨rfl, rfl⟩ := Prod.mk.inj (Option.some.inj h)
    all_goals refine .other nofun ?_
    all_goals rintro _ ⟨⟩
    all_goals exact ⟨nofun, nofun⟩
  | backoff b =>
    cases c <;> obtain ⟨rfl, rfl⟩ := Prod.mk.inj (Option.some.inj h)
    all_goals refine .other nofun ?_
    all_goals rintro _ ⟨⟩
    all_goals exact ⟨nofun, nofun⟩
  | hourglass g =>
    cases c with
    | begin =>
      simp only [tell] at h
      split at h
      · next hclear =>
        obtain ⟨rfl, rfl⟩ := Prod.mk.inj (Option.some.inj h)
        refine .begin g ?_
        simpa [mayBegin, Hourglass.mayBegin] using hclear
      · cases h
    | commit =>
      have released : g.onCommit token =
          (⟨g.threshold, 0, false⟩, if g.holding then false else token) := by
        unfold Hourglass.onCommit Hourglass.release
        cases hholding : g.holding <;> simp
      simp only [tell, onCommit, released] at h
      obtain ⟨rfl, rfl⟩ := Prod.mk.inj (Option.some.inj h)
      exact .commit g
    | abort =>
      rcases g.onAbort_cases token with ⟨hholding, rfl, hdue, habort⟩ | ⟨hearly, habort⟩
      · simp only [tell, onAbort, habort] at h
        obtain ⟨rfl, rfl⟩ := Prod.mk.inj (Option.some.inj h)
        exact .takes g hholding hdue
      · simp only [tell, onAbort, habort] at h
        obtain ⟨rfl, rfl⟩ := Prod.mk.inj (Option.some.inj h)
        exact .counts g hearly
    | drop =>
      simp only [tell, Manager.drop, Hourglass.token_release] at h
      obtain ⟨rfl, rfl⟩ := Prod.mk.inj (Option.some.inj h)
      exact .drop g

@[simp]
theorem isHolder_hourglass (g : Hourglass) :
    IsHolder (some (.hourglass g)) ↔ g.holding = true := by
  simp [IsHolder]

theorem not_isHolder_none : ¬ IsHolder none := nofun

theorem IsOther.not_isHolder (h : m.IsOther) : ¬ IsHolder (some m) := by
  rintro ⟨g, hg, -⟩
  exact h g (Option.some.inj hg)

/-- What is given back by an hourglass is a move of the token. -/
theorem move_release (g : Hourglass) (token : Token) (after : ¬ IsHolder m') :
    TokenMove token (if g.holding then false else token) (IsHolder (some (.hourglass g)))
      (IsHolder m') := by
  rw [isHolder_hourglass]
  cases hholding : g.holding with
  | false => exact .stays rfl (iff_of_false after Bool.false_ne_true)
  | true => exact .freed rfl rfl after

namespace Turn

/-- Every turn is a move of the token. -/
theorem move (T : Turn m token c m' token') :
    TokenMove token token' (IsHolder (some m)) (IsHolder m') := by
  cases T with
  | other before after =>
    refine .stays rfl (iff_of_false ?_ before.not_isHolder)
    cases m' with
    | none => exact not_isHolder_none
    | some n => exact (after n rfl).2.not_isHolder
  | begin g clear => exact .stays rfl Iff.rfl
  | commit g => exact move_release g token (by simp)
  | takes g free due => exact .taken rfl rfl (by simp)
  | counts g early => exact .stays rfl (by simp)
  | drop g => exact move_release g token not_isHolder_none

/-- Only a commit or a drop frees the token. -/
theorem call_of_freed (T : Turn m true c m' false) : c = .commit ∨ c = .drop := by
  generalize hheld : true = held at T
  generalize hfree : false = free at T
  cases T with
  | commit g => exact Or.inl rfl
  | drop g => exact Or.inr rfl
  | takes g free due => cases hheld
  | other | begin | counts => cases hheld.trans hfree.symm

/-- Only an abort takes it. -/
theorem call_of_taken (T : Turn m false c m' true) : c = .abort := by
  generalize hfree : false = free at T
  generalize hheld : true = held at T
  cases T with
  | takes g free due => rfl
  | commit g | drop g =>
    subst hfree
    exact absurd hheld (by cases g.holding <;> exact Bool.noConfusion)
  | other | begin | counts => cases hheld.trans hfree.symm

end Turn

/-- An hourglass has the threshold of the new one that it was, and its count is that of the aborts
in a row, up to the largest number. -/
structure Counts (origin : Option Manager) (calls : List ManagerCall) (g : Hourglass) : Prop where
  /-- The threshold. -/
  origin : ∃ threshold, origin = some (.hourglass (.new threshold)) ∧
    g.threshold = (Hourglass.new threshold).threshold
  /-- The count. -/
  aborts : g.aborts.toNat = min (abortsInARow calls) (UInt32.size - 1)

/-- An hourglass that is told of a further abort asks for the token just if its thread has aborted
as often in a row as the threshold says, and once at least. -/
theorem Counts.due_iff {origin : Option Manager} {calls : List ManagerCall} {g : Hourglass}
    (C : Counts origin calls g) {threshold : UInt32}
    (horigin : origin = some (.hourglass (.new threshold))) : g.threshold ≤ g.nextAborts ↔
      max threshold.toNat 1 ≤ abortsInARow (calls ++ [.abort]) := by
  obtain ⟨t, ht, hthreshold⟩ := C.origin
  have hsame : (Hourglass.new t).threshold = (Hourglass.new threshold).threshold := by
    obtain heq := Manager.hourglass.inj (Option.some.inj (ht.symm.trans horigin))
    rw [heq]
  have hle : (Hourglass.new threshold).threshold.toNat ≤ UInt32.size - 1 :=
    Nat.le_sub_one_of_lt (Hourglass.new threshold).threshold.toNat_lt
  rw [hthreshold, hsame, UInt32.le_iff_toNat_le, Hourglass.toNat_nextAborts C.aborts,
    abortsInARow_concat, Nat.le_min, and_iff_left hle, Hourglass.toNat_threshold_new]

/-- A part of a pool: it is simple, and an hourglass counts what it was told. -/
structure Standing (origin : Option Manager) (calls : List ManagerCall) (m : Manager) : Prop where
  /-- It is simple. -/
  simple : m.IsSimple
  /-- An hourglass counts. -/
  counts : ∀ g, m = .hourglass g → Counts origin calls g

/-- A call keeps a part standing. -/
theorem Turn.standing {n : Manager} {origin : Option Manager} {calls : List ManagerCall}
    (T : Turn m token c (some n) token') (S : Standing origin calls m) :
    Standing origin (calls ++ [c]) n := by
  generalize hn : some n = m' at T
  cases T with
  | other before after => exact ⟨(after n hn.symm).1, fun g hg => absurd hg ((after n hn.symm).2 g)⟩
  | drop g => cases hn
  | begin g | commit g | takes g | counts g =>
    obtain rfl := Option.some.inj hn
    refine ⟨nofun, ?_⟩
    rintro _ ⟨⟩
    have C := S.counts g rfl
    refine ⟨C.origin, ?_⟩
    rw [abortsInARow_concat]
    first
      | exact C.aborts
      | rfl
      | exact Hourglass.toNat_nextAborts C.aborts

end Manager

/-! ## Pools -/

namespace ManagerPool

variable {ι : Type} {m₀ : ι → Manager} {s s' : ManagerPool ι} {i : ι} {c : ManagerCall}

/-- What is kept by every step. -/
structure Sound (m₀ : ι → Manager) (s : ManagerPool ι) : Prop where
  /-- The token has one owner, or none. -/
  owned : Owned s.token s.Holds
  /-- All parts stand. -/
  standing : ∀ p m, s.part p = some m → m.Standing (m₀ p.1).parts[p.2]? (s.told p)

theorem Sound.init (new : ∀ i, (m₀ i).IsNew) : (init m₀).Sound m₀ where
  owned := .free fun p ⟨g, hg, hholding⟩ => by
    obtain ⟨⟨threshold, rfl⟩, -⟩ := (new p.1).part (List.mem_of_getElem? hg)
    cases hholding
  standing p m hm := by
    obtain ⟨hnew, hsimple⟩ := (new p.1).part (List.mem_of_getElem? hm)
    refine ⟨hsimple, ?_⟩
    rintro g rfl
    obtain ⟨threshold, rfl⟩ := hnew
    exact ⟨⟨threshold, hm, rfl⟩, rfl⟩

variable [DecidableEq ι]

/-- What a step does. -/
theorem exists_of_step (h : s.step i c = some s') : ∃ k m m' token', s.next i c = some k ∧
    s.part (i, k) = some m ∧ m.tell s.token c = some (m', token') ∧
    s' = s.after (i, k) c m' token' := by
  obtain ⟨k, hk, h⟩ := Option.bind_eq_some_iff.1 h
  obtain ⟨m, hm, h⟩ := Option.bind_eq_some_iff.1 h
  obtain ⟨⟨m', token'⟩, htell, h⟩ := Option.bind_eq_some_iff.1 h
  exact ⟨k, m, m', token', hk, hm, htell, (Option.some.inj h).symm⟩

theorem step_eq_some {k : Nat} {m : Manager} {m' : Option Manager} {token' : Token}
    (hk : s.next i c = some k) (hm : s.part (i, k) = some m)
    (htell : m.tell s.token c = some (m', token')) :
    s.step i c = some (s.after (i, k) c m' token') := by
  simp [step, hk, hm, htell]

theorem holds_after_self (p : ι × Nat) (c : ManagerCall) (m : Option Manager) (token : Token) :
    (s.after p c m token).Holds p ↔ Manager.IsHolder m := by
  simp [Holds, after]

theorem holds_after_of_ne {p q : ι × Nat} (h : q ≠ p) (c : ManagerCall) (m : Option Manager)
    (token : Token) : (s.after p c m token).Holds q ↔ s.Holds q := by
  simp [Holds, after, h]

/-- The part that a step tells makes one of its turns. -/
theorem Sound.turn (S : s.Sound m₀) (h : s.step i c = some s') : ∃ k m m' token',
    s.next i c = some k ∧ s.part (i, k) = some m ∧ Manager.Turn m s.token c m' token' ∧
    s' = s.after (i, k) c m' token' := by
  obtain ⟨k, m, m', token', hk, hm, htell, rfl⟩ := exists_of_step h
  exact ⟨k, m, m', token', hk, hm, Manager.turn_of_tell (S.standing _ m hm).simple htell, rfl⟩

theorem Sound.step (S : s.Sound m₀) (h : s.step i c = some s') : s'.Sound m₀ := by
  obtain ⟨k, m, m', token', -, hm, T, rfl⟩ := S.turn h
  have hholds : s.Holds (i, k) ↔ Manager.IsHolder (some m) := by rw [Holds, hm]
  refine ⟨S.owned.move (i, k) (fun q hq => holds_after_of_ne hq c m' token') ?_, fun q n hn => ?_⟩
  · rw [holds_after_self, hholds]
    exact T.move
  · by_cases hq : q = (i, k)
    · subst hq
      obtain rfl : m' = some n := by simpa [after] using hn
      have := T.standing (S.standing _ m hm)
      simpa [after] using this
    · have := S.standing q n (by simpa [after, hq] using hn)
      simpa [after, hq] using this

theorem sound_of_reachable (new : ∀ i, (m₀ i).IsNew) (h : Reachable m₀ s) : s.Sound m₀ := by
  induction h with
  | refl => exact .init new
  | tail _ hstep S =>
    obtain ⟨i, c, hstep⟩ := hstep
    exact S.step hstep

/-- In every reachable state the token is held by one hourglass or by none. -/
theorem ownership_of_reachable (new : ∀ i, (m₀ i).IsNew) (h : Reachable m₀ s) :
    Ownership m₀ s := by
  have S := sound_of_reachable new h
  refine ⟨?_, S.owned.unique, ?_, ?_, ?_⟩
  · rw [S.owned.held]
    exact ⟨fun ⟨p, hp⟩ => ⟨p, hp, fun q hq => S.owned.unique q p hq hp⟩, ExistsUnique.exists⟩
  · intro i c s' hstep hheld hfree
    obtain ⟨k, m, m', token', hk, hm, T, rfl⟩ := S.turn hstep
    obtain rfl : token' = false := hfree
    rw [hheld] at T
    refine ⟨k, hk, ?_⟩
    rw [holds_after_self, Holds, hm]
    cases T.move with
    | stays htoken => cases htoken
    | freed holder _ own => exact ⟨holder, own, T.call_of_freed⟩
    | taken htoken => cases htoken
  · intro i c s' hstep hfree hheld
    obtain ⟨k, m, m', token', hk, hm, T, rfl⟩ := S.turn hstep
    obtain rfl : token' = true := hheld
    rw [hfree] at T
    have hnobody : ¬ s.Holds (i, k) := fun hp =>
      Bool.false_ne_true (hfree.symm.trans (S.owned.held.2 ⟨_, hp⟩))
    refine ⟨k, hk, hnobody, ?_⟩
    rw [holds_after_self]
    cases T.move with
    | stays htoken => cases htoken
    | freed _ htoken => cases htoken
    | taken _ _ own => exact ⟨own, T.call_of_taken⟩
  · intro i k g hk hg
    have C := (S.standing _ _ hg).counts g rfl
    obtain ⟨threshold, horigin, -⟩ := C.origin
    refine ⟨threshold, _, horigin, step_eq_some hk hg rfl, ?_⟩
    have hholds : s.Holds (i, k) ↔ g.holding = true := by
      rw [Holds, hg, Manager.isHolder_hourglass]
    rw [holds_after_self, hholds, ← C.due_iff horigin, Bool.not_eq_true, Manager.onAbort,
      Manager.isHolder_hourglass]
    rcases g.onAbort_cases s.token with ⟨hholding, hfree, hdue, habort⟩ | ⟨hearly, habort⟩
    · rw [habort]
      exact iff_of_true ⟨hfree, rfl, rfl⟩ ⟨hholding, hfree, hdue⟩
    · rw [habort]
      -- The token is as before, and so it was not taken.
      exact iff_of_false (fun h => Bool.false_ne_true (h.1.symm.trans h.2.1)) hearly

/-! ## Calls that nobody interrupts -/

theorem part_after (s : ManagerPool ι) (i : ι) (k : Nat) (c : ManagerCall) (m : Option Manager)
    (token : Token) (j : Nat) :
    (s.after (i, k) c m token).part (i, j) = if j = k then m else s.part (i, j) := by
  simp [after, Function.update_apply]

/-- The parts from some part on are told as if nothing else were there. -/
theorem run_rest {ms : List Manager} {k : Nat} (next : ms ≠ [] → s.next i c = some k)
    (idle : ms = [] → s.underway i = none) (part : ∀ j, s.part (i, k + j) = ms[j]?)
    (size : s.size i = k + ms.length) :
    (s.run (List.replicate ms.length (i, c))).map
        (fun s' => (s'.token, s'.underway i, fun j => s'.part (i, j))) =
      (Manager.tellAll c ms s.token).map fun (ms', token) =>
        (token, none, fun j => if j < k then s.part (i, j) else ms'[j - k]?.join) := by
  induction ms generalizing s k with
  | nil =>
    have rest (j : Nat) (hj : ¬ j < k) : s.part (i, j) = none := by
      have := part (j - k)
      rwa [Nat.add_sub_cancel' (Nat.not_lt.1 hj)] at this
    simp only [List.length_nil, List.replicate_zero, run, Manager.tellAll, Option.map_some,
      idle rfl]
    congr 3
    funext j
    by_cases hj : j < k <;> simp [hj, rest]
  | cons m ms ih =>
    have hk := next (List.cons_ne_nil m ms)
    have hm : s.part (i, k) = some m := part 0
    rw [List.length_cons, List.replicate_succ, run, Manager.tellAll]
    cases htell : m.tell s.token c with
    | none => simp [ManagerPool.step, hk, hm, htell]
    | some result =>
      obtain ⟨m', token'⟩ := result
      rw [step_eq_some hk hm htell, Option.bind_some, Option.bind_some, Option.map_map]
      rw [List.length_cons] at size
      have hunderway : (s.after (i, k) c m' token').underway i =
          if k + 1 < s.size i then some (c, k + 1) else none := by simp [after]
      refine (ih (k := k + 1) (fun hms => ?_) (fun hms => ?_) (fun j => ?_) ?_).trans ?_
      · have hlt : k + 1 < s.size i := by
          have := List.length_pos_of_ne_nil hms
          omega
        rw [ManagerPool.next, hunderway, if_pos hlt]
        exact if_pos rfl
      · rw [hunderway, if_neg]
        simp [size, hms]
      · rw [part_after, if_neg (by omega), Nat.add_assoc, part, Nat.add_comm 1]
        exact List.getElem?_cons_succ
      · show s.size i = _
        omega
      · show Option.map _ (Manager.tellAll c ms token') = _
        congr 1
        funext ⟨ms', token''⟩
        simp only [Function.comp_apply, Prod.mk.injEq, true_and]
        funext j
        rw [part_after]
        -- The part that was told is the first one of those that are left.
        rcases Nat.lt_trichotomy j k with hj | rfl | hj
        · rw [if_pos (by omega), if_neg (by omega), if_pos hj]
        · rw [if_pos (by omega), if_pos rfl, if_neg (Nat.lt_irrefl j), Nat.sub_self]
          rfl
        · rw [if_neg (by omega), if_neg (by omega), show j - k = j - (k + 1) + 1 by omega]
          rfl

/-- A call on a manager that is not interrupted does what the manager does when it is told of it as
a whole. -/
theorem run_whole {m : Manager} (idle : s.underway i = none)
    (part : ∀ k, s.part (i, k) = m.parts[k]?) (size : s.size i = m.parts.length)
    (c : ManagerCall) :
    (s.run (List.replicate m.parts.length (i, c))).map
        (fun s' => (s'.token, s'.underway i, fun k => s'.part (i, k))) =
      (m.tell s.token c).map fun (m', token) =>
        (token, none, fun k => (m.partsAfter m')[k]?.join) := by
  have next : m.parts ≠ [] → s.next i c = some 0 := fun _ => by rw [ManagerPool.next, idle]
  refine (run_rest next (fun _ => idle) (fun j => ?_) (by rw [size, Nat.zero_add])).trans ?_
  · rw [Nat.zero_add]
    exact part j
  · rw [Manager.tellAll_parts, Option.map_map]
    simp [Function.comp_def]

/-! ## A run -/

theorem steps_of_run {steps : List (ι × ManagerCall)} (h : s.run steps = some s') :
    Relation.ReflTransGen Step s s' := by
  refine reflTransGen_of_run (fun _ => rfl) (fun s x steps s' h => ?_) h
  obtain ⟨s₁, hstep, hrest⟩ := Option.bind_eq_some_iff.1 h
  exact ⟨s₁, ⟨x.1, x.2, hstep⟩, hrest⟩

/-- A manager with two hourglasses, and one whose hourglass has no threshold. -/
def nestedHourglasses : Bool → Manager
  | false =>
      .compose (.hourglass (.new 2)) (.compose (.hourglass (.new 1)) .aggressive "inner") "outer"
  | true => Policy.build (.hourglassBackoff 0 4 8)

/-- Between the parts of the first manager the second one takes the token, and it is dropped while
the first one is told of the next abort. -/
def interruptedCalls : List (Bool × ManagerCall) :=
  [(false, .abort), (true, .abort), (false, .abort), (false, .abort), (true, .abort),
    (false, .abort), (true, .drop), (false, .abort)]

/-- So the inner hourglass gets it with the second abort of its thread. -/
theorem ownership_of_interrupted_calls :
    (∀ b, (nestedHourglasses b).IsNew) ∧
      ∃ s, Reachable nestedHourglasses s ∧ s.Holds (false, 1) ∧ s.part (true, 0) = none ∧
        Ownership nestedHourglasses s := by
  have new (b : Bool) : (nestedHourglasses b).IsNew := by
    cases b with
    | false => exact ⟨⟨2, rfl⟩, ⟨1, rfl⟩, trivial⟩
    | true => exact Policy.isNew_build (.hourglassBackoff 0 4 8)
  have facts : ((init nestedHourglasses).run interruptedCalls).map (fun s =>
      ((s.part (false, 1)).bind Manager.holding?, (s.part (true, 0)).isNone)) =
        some (some true, true) := by
    decide +kernel
  obtain ⟨s, hrun, hs⟩ := Option.map_eq_some_iff.1 facts
  obtain ⟨hholding, hdropped⟩ := Prod.mk.inj hs
  obtain ⟨m, hm, hm'⟩ := Option.bind_eq_some_iff.1 hholding
  have hholds : s.Holds (false, 1) := by
    cases m with
    | hourglass g => exact ⟨g, hm, Option.some.inj hm'⟩
    | aggressive | backoff | compose => cases hm'
  have hreach : Reachable nestedHourglasses s := steps_of_run hrun
  exact ⟨new, s, hreach, hholds, Option.isNone_iff_eq_none.1 hdropped,
    ownership_of_reachable new hreach⟩

end ManagerPool

end HybridTM
