import HybridTM.Proofs.TxAction
import Mathlib.Data.UInt
import Mathlib.Tactic.Ring

/-!
# What a transaction is asked

Beside the actions of an attempt a transaction answers a few questions about itself (`TxRequest`).
An optimistic attempt that is under way changes neither memory nor the clock
(`Transaction.Optimistic.respond`), nor does one that ends without having published anything
(`Transaction.Optimistic.ends`). And two transactions that are in the same state, apart from what is
left of an attempt that has ended, answer alike and stay so (`Transaction.Resembles.respond`).
-/

set_option autoImplicit false

namespace HybridTM

open scoped UInt64.CommRing

/-! ## Requests -/

/-- What a transaction can be called for. -/
inductive TxRequest where
  /-- It does something. -/
  | act (x : TxAction)
  /-- It compares its reads with memory. -/
  | validate
  /-- It tells the clock value that its reads agree with. -/
  | startTime
  /-- It tells its role, whether it is active, and how much it has read and written. -/
  | look
  /-- It hands over its count of attempts to take the clock. -/
  | takeLockAttempts
  deriving DecidableEq

/-- What a transaction tells about its attempt. -/
structure TxView where
  /-- The role. -/
  role : Role
  /-- Whether an attempt is under way. -/
  active : Bool
  /-- The number of logged reads. -/
  reads : Nat
  /-- The number of words written. -/
  writes : Nat
  deriving DecidableEq

deriving instance DecidableEq for TxAnswer

/-- What a transaction replies to a call. -/
inductive TxReply where
  /-- What comes of an action. -/
  | act (answer : TxAnswer)
  /-- The result of a validation. -/
  | validated (result : Except TxError Timestamp)
  /-- The start. -/
  | startTime (start : Timestamp)
  /-- What there is to see. -/
  | look (view : TxView)
  /-- The attempts to take the clock. -/
  | lockAttempts (n : Word)
  deriving DecidableEq

namespace TxRequest

/-- What callers promise of actions. Questions can be asked at any time. -/
def Allowed (tx : Transaction) : TxRequest → Prop
  | act x => x.Allowed tx
  | _ => True

instance (tx : Transaction) : (c : TxRequest) → Decidable (c.Allowed tx)
  | act x => inferInstanceAs (Decidable (x.Allowed tx))
  | validate | startTime | look | takeLockAttempts => inferInstanceAs (Decidable True)

/-- Whether a call begins an attempt or puts a new transaction in place of the old one. -/
def restarts : TxRequest → Bool
  | act .begin | act .beginSerial | act .beginExclusive | act .drop => true
  | _ => false

/-- Whether the attempts to take the clock are counted from zero after a call. -/
def collects : TxRequest → Bool
  | takeLockAttempts | act .drop => true
  | _ => false

end TxRequest

namespace Transaction

/-- What a transaction tells about its attempt. -/
def view (tx : Transaction) : TxView := ⟨tx.role, tx.active, tx.reads.size, tx.writes.size⟩

/-- Reply to a call. A call that would have to wait for the clock is not possible. -/
def respond (tx : Transaction) (s : Shared) : TxRequest → Option (TxReply × Transaction × Shared)
  | .act x => (tx.perform s x).map fun (answer, tx, s) => (.act answer, tx, s)
  | .validate => (tx.validate s).map fun result => (.validated result, tx, s)
  | .startTime => some (.startTime tx.start, tx, s)
  | .look => some (.look tx.view, tx, s)
  | .takeLockAttempts =>
      let (n, tx) := tx.takeLockAttempts
      some (.lockAttempts n, tx, s)

/-- An optimistic attempt is under way. -/
structure Optimistic (tx : Transaction) : Prop where
  /-- An attempt is under way. -/
  active : tx.active = true
  /-- It reads with validation. -/
  role : tx.role.isIrrevocable = false

/-- Nothing is left of any attempt. -/
structure Idle (tx : Transaction) : Prop where
  /-- No attempt is under way. -/
  active : tx.active = false
  /-- The next write would be the first. -/
  role : tx.role = .readOnly
  /-- Nothing was read. -/
  reads : tx.reads = .empty
  /-- Nothing was written. -/
  writes : tx.writes = .empty

theorem idle_idle (c : Clock) : (idle c).Idle := ⟨rfl, rfl, rfl, rfl⟩

theorem idle_finish (tx : Transaction) : tx.finish.Idle := ⟨rfl, rfl, rfl, rfl⟩

variable {tx tx' : Transaction} {s s' : Shared} {c : TxRequest} {reply : TxReply}

/-! ## Optimistic attempts -/

namespace Optimistic

/-- While it goes on, an optimistic attempt stays so and changes neither memory nor the clock. -/
theorem respond (O : tx.Optimistic) (allowed : c.Allowed tx)
    (h : tx.respond s c = some (reply, tx', s')) (active : tx'.active = true) :
    tx'.Optimistic ∧ s' = s := by
  have idle (hidle : tx'.active = false) : tx'.Optimistic ∧ s' = s := by
    rw [hidle] at active
    cases active
  cases c with
  | act x =>
    obtain ⟨⟨answer, tx₁, s₁⟩, hperform, heq⟩ := Option.map_eq_some_iff.1 h
    obtain ⟨-, rfl, rfl⟩ : _ ∧ _ ∧ _ := by simpa using heq
    cases x with
    | begin => cases O.active.symm.trans (show tx.active = false from allowed)
    | beginSerial => cases O.active.symm.trans (show tx.active = false from allowed)
    | beginExclusive => cases O.active.symm.trans (show tx.active = false from allowed)
    | read a mask =>
      obtain ⟨⟨result, tx₂⟩, hread, heq⟩ := Option.map_eq_some_iff.1 hperform
      obtain ⟨-, rfl, rfl⟩ : _ ∧ _ ∧ _ := by simpa using heq
      obtain ⟨hrole, -, -⟩ := kept_read hread
      exact ⟨⟨active, by rw [hrole]; exact O.role⟩, rfl⟩
    | write a v mask =>
      cases hperform
      refine ⟨⟨active, ?_⟩, rfl⟩
      rcases tx.role_write a v mask with ⟨hrole, -⟩ | ⟨hrole, -⟩ <;> rw [hrole]
      · rfl
      · exact O.role
    | commit =>
      obtain ⟨⟨result, tx₂, s₂⟩, hcommit, heq⟩ := Option.map_eq_some_iff.1 hperform
      obtain ⟨-, rfl, rfl⟩ : _ ∧ _ ∧ _ := by simpa using heq
      rcases commit_cases hcommit with ⟨-, -, rfl, -⟩ | ⟨-, now, locked, -, -, -, -, n, rfl⟩ |
        ⟨-, -, -, rfl, n, rfl⟩ | ⟨-, -, -, rfl⟩ | ⟨-, -, -, rfl⟩
      · exact idle rfl
      · exact idle rfl
      · exact ⟨⟨active, O.role⟩, rfl⟩
      · exact idle rfl
      · exact idle rfl
    | rollback =>
      obtain ⟨-, rfl, -⟩ : _ ∧ _ ∧ _ := by simpa [perform] using hperform
      refine idle ?_
      rw [rollback, if_pos O.active]
      rfl
    | drop =>
      obtain ⟨-, rfl, -⟩ : _ ∧ _ ∧ _ := by simpa [perform] using hperform
      exact idle rfl
  | validate =>
    obtain ⟨result, -, heq⟩ := Option.map_eq_some_iff.1 h
    obtain ⟨-, rfl, rfl⟩ : _ ∧ _ ∧ _ := by simpa using heq
    exact ⟨O, rfl⟩
  | startTime =>
    cases h
    exact ⟨O, rfl⟩
  | look =>
    cases h
    exact ⟨O, rfl⟩
  | takeLockAttempts =>
    cases h
    exact ⟨⟨active, O.role⟩, rfl⟩

end Optimistic

end Transaction

/-- Whether a call that was replied to ends an attempt without publishing anything: a commit that
had nothing to write, a rollback or a drop. -/
def TxRequest.EndsQuietly : TxRequest → TxReply → Prop
  | .act .commit, reply => reply = .act (.committed (.ok .readOnly))
  | .act .rollback, _ | .act .drop, _ => True
  | _, _ => False

namespace Transaction

variable {tx tx' : Transaction} {s s' : Shared} {c : TxRequest} {reply : TxReply}

/-- An optimistic attempt has no clock to release. -/
theorem Optimistic.released (O : tx.Optimistic) (c : Clock) : tx.released c = c := by
  have unheld : ¬ tx.HoldsClock := not_holdsClock_of_role fun hrole => by
    have := O.role
    rw [hrole] at this
    cases this
  rw [released_eq, if_neg unheld]

/-- It can be rolled back without touching the clock. -/
theorem Optimistic.rollback (O : tx.Optimistic) (c : Clock) : tx.rollback c = (tx.finish, c) := by
  rw [Transaction.rollback, if_pos O.active, O.released]

/-- An optimistic attempt that ends without publishing anything changes neither memory nor the
clock, and nothing is left of it. -/
theorem Optimistic.ends (O : tx.Optimistic) (h : tx.respond s c = some (reply, tx', s'))
    (quiet : c.EndsQuietly reply) : tx'.Idle ∧ s' = s := by
  cases c with
  | act x =>
    obtain ⟨⟨answer, tx₁, s₁⟩, hperform, heq⟩ := Option.map_eq_some_iff.1 h
    obtain ⟨rfl, rfl, rfl⟩ : _ ∧ _ ∧ _ := by simpa using heq
    cases x with
    | commit =>
      obtain ⟨⟨result, tx₂, s₂⟩, hcommit, heq⟩ := Option.map_eq_some_iff.1 hperform
      obtain ⟨rfl, rfl, rfl⟩ : _ ∧ _ ∧ _ := by simpa using heq
      obtain rfl : result = .ok .readOnly := by simpa [TxRequest.EndsQuietly] using quiet
      rcases commit_cases hcommit with ⟨-, -, rfl, rfl⟩ | ⟨-, now, locked, -, -, hresult, -⟩ |
        ⟨-, -, hresult, -⟩ | ⟨-, hresult, -⟩ | ⟨-, hresult, -⟩
      · exact ⟨tx.idle_finish, rfl⟩
      · cases hresult
      · cases hresult
      · cases hresult
      · cases hresult
    | rollback =>
      obtain ⟨-, rfl, rfl⟩ : _ ∧ _ ∧ _ := by simpa [perform] using hperform
      rw [O.rollback]
      exact ⟨tx.idle_finish, rfl⟩
    | drop =>
      obtain ⟨-, rfl, rfl⟩ : _ ∧ _ ∧ _ := by simpa [perform] using hperform
      rw [O.released]
      exact ⟨idle_idle _, rfl⟩
    | _ => cases quiet
  | _ => cases quiet

/-- A new optimistic attempt changes neither memory nor the clock. -/
theorem optimistic_begin (h : tx.respond s (.act .begin) = some (reply, tx', s')) :
    tx'.Optimistic ∧ s' = s := by
  cases h
  exact ⟨⟨rfl, rfl⟩, rfl⟩

/-- Nothing is ever left of an attempt that is over. -/
theorem idle_respond (idle : tx.active = false → tx.Idle) (allowed : c.Allowed tx)
    (h : tx.respond s c = some (reply, tx', s')) (ended : tx'.active = false) : tx'.Idle := by
  cases c with
  | act x =>
    obtain ⟨⟨answer, tx₁, s₁⟩, hperform, heq⟩ := Option.map_eq_some_iff.1 h
    obtain ⟨-, rfl, rfl⟩ : _ ∧ _ ∧ _ := by simpa using heq
    cases x with
    | begin =>
      cases hperform
      cases ended
    | beginSerial =>
      obtain ⟨⟨tx₂, c⟩, hbegin, heq⟩ := Option.map_eq_some_iff.1 hperform
      obtain ⟨-, rfl, -⟩ : _ ∧ _ ∧ _ := by simpa using heq
      obtain ⟨now, -, -, rfl⟩ := beginSerial_eq_some hbegin
      cases ended
    | beginExclusive =>
      cases hperform
      cases ended
    | read a mask =>
      obtain ⟨⟨result, tx₂⟩, hread, heq⟩ := Option.map_eq_some_iff.1 hperform
      obtain ⟨-, rfl, -⟩ : _ ∧ _ ∧ _ := by simpa using heq
      have hactive := (kept_read hread).2.1
      rw [ended, show tx.active = true from allowed] at hactive
      cases hactive
    | write a v mask =>
      cases hperform
      cases ended.symm.trans (show tx.active = true from allowed)
    | commit =>
      obtain ⟨⟨result, tx₂, s₂⟩, hcommit, heq⟩ := Option.map_eq_some_iff.1 hperform
      obtain ⟨-, rfl, -⟩ : _ ∧ _ ∧ _ := by simpa using heq
      rcases commit_cases hcommit with ⟨-, -, rfl, -⟩ | ⟨-, now, locked, -, -, -, -, n, rfl⟩ |
        ⟨-, -, -, -, n, rfl⟩ | ⟨-, -, -, rfl⟩ | ⟨-, -, -, rfl⟩
      · exact idle_finish _
      · exact idle_finish _
      · cases ended.symm.trans (show tx.active = true from allowed)
      · exact idle_finish _
      · exact idle_finish _
    | rollback =>
      obtain ⟨-, rfl, -⟩ : _ ∧ _ ∧ _ := by simpa [perform] using hperform
      unfold rollback at ended ⊢
      split
      · exact tx.idle_finish
      · next hactive =>
        rw [Bool.not_eq_true] at hactive
        exact idle hactive
    | drop =>
      obtain ⟨-, rfl, -⟩ : _ ∧ _ ∧ _ := by simpa [perform] using hperform
      exact idle_idle _
  | validate =>
    obtain ⟨result, -, heq⟩ := Option.map_eq_some_iff.1 h
    obtain ⟨-, rfl, -⟩ : _ ∧ _ ∧ _ := by simpa using heq
    exact idle ended
  | takeLockAttempts =>
    cases h
    obtain ⟨hactive, hrole, hreads, hwrites⟩ := idle ended
    exact ⟨hactive, hrole, hreads, hwrites⟩
  | _ =>
    cases h
    exact idle ended

/-! ## Attempts to take the clock -/

/-- What a transaction does does not depend on how often it has tried to take the clock. -/
theorem perform_lockAttempts (tx : Transaction) (s : Shared) {x : TxAction} (hx : x ≠ .drop)
    (n : Word) : ({ tx with lockAttempts := n } : Transaction).perform s x =
      (tx.perform s x).map fun (answer, tx', s') =>
        (answer, { tx' with lockAttempts := n + (tx'.lockAttempts - tx.lockAttempts) }, s') := by
  have none : n + (tx.lockAttempts - tx.lockAttempts) = n := by ring
  have two : n + (tx.lockAttempts + 1 + 1 - tx.lockAttempts) = n + 1 + 1 := by ring
  cases x with
  | begin => simp [perform, begin, reset]
  | beginExclusive => simp [perform, beginExclusive, reset]
  | beginSerial =>
    cases hfree : s.clock.unlocked? with
    | none => simp [perform, beginSerial, hfree]
    | some now => simp [perform, beginSerial, hfree, lock?_of_unlocked? hfree, reset]
  | read a mask =>
    have hstart : ({ tx with lockAttempts := n } : Transaction).currentStart s =
        tx.currentStart s := rfl
    simp only [perform, read, hstart]
    split
    · simp
    · split
      · simp
      · split <;> simp
  | write a v mask => simp [perform, write]
  | commit =>
    have hvalidate (role : Role) : ({ tx with role, lockAttempts := n } : Transaction).validate s =
        tx.validate s := rfl
    cases hrole : tx.role with
    | readOnly => simp [perform, commit, hrole, finish]
    | exclusive => simp [perform, commit, hrole, finish]
    | serial => simp [perform, commit, hrole, finish, publish]
    | readWrite =>
      cases hlock : s.clock.lock? tx.start with
      | some locked => simp [perform, commit, hrole, hlock, publish, finish]
      | none =>
        rcases hval : tx.validate s with _ | _ | now
        · simp [perform, commit, hrole, hlock, hvalidate, hval]
        · simp [perform, commit, hrole, hlock, hvalidate, hval]
        · cases hretry : s.clock.lock? now with
          | none => simp [perform, commit, hrole, hlock, hvalidate, hval, hretry]
          | some locked =>
            simp [perform, commit, hrole, hlock, hvalidate, hval, hretry, publish, finish, two]
  | rollback =>
    simp only [perform, rollback, released]
    split <;> simp [finish]
  | drop => exact absurd rfl hx

/-! ## Transactions that resemble each other -/

/-- Two transactions are in the same state, apart from the start of an attempt that is over and the
count of attempts to take the clock: the first, until one of them has begun again, and the second,
until it was collected. -/
structure Resembles (restarted collected : Bool) (tx tx' : Transaction) : Prop where
  /-- They have the same role. -/
  role : tx.role = tx'.role
  /-- They have an attempt under way or not. -/
  active : tx.active = tx'.active
  /-- They have read the same. -/
  reads : tx.reads = tx'.reads
  /-- They have written the same. -/
  writes : tx.writes = tx'.writes
  /-- They have the same start once they have begun again. -/
  start : restarted = true → tx.start = tx'.start
  /-- Until then no attempt is under way. -/
  idle : restarted = false → tx.active = false
  /-- They have tried to take the clock equally often since that was collected. -/
  lockAttempts : collected = true → tx.lockAttempts = tx'.lockAttempts

namespace Resembles

variable {b d : Bool} {u u' : Transaction}

theorem allowed (R : Resembles b d tx u) (h : c.Allowed tx) : c.Allowed u := by
  cases c with
  | act x => cases x <;> first | trivial | exact R.active.symm.trans h
  | _ => trivial

/-- Transactions that have begun again differ in the count only. -/
theorem eq_of_restarted (R : Resembles true d tx u) :
    u = { tx with lockAttempts := u.lockAttempts } := by
  obtain ⟨start, role, reads, writes, lockAttempts, active⟩ := tx
  obtain ⟨start', role', reads', writes', lockAttempts', active'⟩ := u
  obtain ⟨rfl, rfl, rfl, rfl, hstart, -, -⟩ := R
  obtain rfl : start = start' := hstart rfl
  rfl

/-- Transactions with the same state apart from the count resemble each other. -/
theorem of_lockAttempts {n : Word} (h : d = true → tx.lockAttempts = n) :
    Resembles true d tx { tx with lockAttempts := n } :=
  ⟨rfl, rfl, rfl, rfl, fun _ => rfl, nofun, h⟩

/-- Once nothing is left of any attempt, only start and count can differ. -/
theorem of_idle (hidle : tx.Idle) (hidle' : u.Idle) : Resembles false false tx u where
  role := hidle.role.trans hidle'.role.symm
  active := hidle.active.trans hidle'.active.symm
  reads := hidle.reads.trans hidle'.reads.symm
  writes := hidle.writes.trans hidle'.writes.symm
  start := nofun
  idle _ := hidle.active
  lockAttempts := nofun

theorem refl (b d : Bool) (tx : Transaction) (h : b = false → tx.active = false) :
    Resembles b d tx tx :=
  ⟨rfl, rfl, rfl, rfl, fun _ => rfl, h, fun _ => rfl⟩

theorem refl_restarted (d : Bool) (tx : Transaction) : Resembles true d tx tx :=
  refl true d tx nofun

/-- Who has begun again does the same, and tries to take the clock as often. -/
theorem perform_restarted (R : Resembles true d tx u) {x : TxAction} {answer : TxAnswer}
    (h : tx.perform s x = some (answer, tx', s')) :
    ∃ u', u.perform s x = some (answer, u', s') ∧
      Resembles true (d || (TxRequest.act x).collects) tx' u' := by
  by_cases hx : x = .drop
  · subst hx
    obtain ⟨rfl, rfl, rfl⟩ : _ ∧ _ ∧ _ := by simpa [Transaction.perform] using h
    refine ⟨.idle (tx.released s.clock), ?_, .refl_restarted _ _⟩
    rw [R.eq_of_restarted]
    rfl
  · rw [R.eq_of_restarted, tx.perform_lockAttempts s hx, h]
    refine ⟨_, rfl, of_lockAttempts fun hd => ?_⟩
    have hcollected : d = true := by
      cases x <;> first | exact absurd rfl hx | simpa [TxRequest.collects] using hd
    rw [← R.lockAttempts hcollected]
    ring

/-- While no attempt is under way, a transaction begins one, or its last attempt is given up once
more, or it is dropped. -/
theorem perform_idle (R : Resembles false d tx u) {x : TxAction} {answer : TxAnswer}
    (allowed : x.Allowed tx) (h : tx.perform s x = some (answer, tx', s')) :
    ∃ u', u.perform s x = some (answer, u', s') ∧
      Resembles (TxRequest.act x).restarts (d || (TxRequest.act x).collects) tx' u' := by
  have idle := R.idle rfl
  have idle' : u.active = false := R.active.symm.trans idle
  have counted (hd : (d || false) = true) : tx.lockAttempts = u.lockAttempts :=
    R.lockAttempts (by simpa using hd)
  cases x with
  | begin =>
    cases h
    exact ⟨_, rfl, rfl, rfl, rfl, rfl, fun _ => rfl, fun h => Bool.noConfusion h, counted⟩
  | beginExclusive =>
    cases h
    exact ⟨_, rfl, rfl, rfl, rfl, rfl, fun _ => rfl, fun h => Bool.noConfusion h, counted⟩
  | beginSerial =>
    obtain ⟨⟨tx₁, c⟩, hbegin, heq⟩ := Option.map_eq_some_iff.1 h
    obtain ⟨rfl, rfl, rfl⟩ : _ ∧ _ ∧ _ := by simpa using heq
    obtain ⟨now, hnow, rfl, rfl⟩ := beginSerial_eq_some hbegin
    refine ⟨{ u.reset .serial with start := now, lockAttempts := u.lockAttempts + 1 }, ?_, rfl, rfl,
      rfl, rfl, fun _ => rfl, fun h => Bool.noConfusion h, fun hd => ?_⟩
    · simp [Transaction.perform, beginSerial, hnow, lock?_of_unlocked? hnow, reset]
    · rw [counted hd]
  | rollback =>
    have hrollback (v : Transaction) (hv : v.active = false) (c : Clock) :
        v.rollback c = (v, c) := if_neg (by rw [hv]; exact Bool.false_ne_true)
    simp only [Transaction.perform, hrollback tx idle] at h
    obtain ⟨rfl, rfl, rfl⟩ : _ ∧ _ ∧ _ := by simpa using h
    refine ⟨u, by simp only [Transaction.perform, hrollback u idle'], ?_⟩
    simpa [TxRequest.restarts, TxRequest.collects] using R
  | drop =>
    have hreleased (v : Transaction) (hv : v.active = false) : v.released s.clock = s.clock := by
      rw [released_eq, if_neg (not_holdsClock_of_idle hv)]
    simp only [Transaction.perform, hreleased tx idle] at h
    obtain ⟨rfl, rfl, rfl⟩ : _ ∧ _ ∧ _ := by simpa using h
    exact ⟨_, by simp only [Transaction.perform, hreleased u idle'], .refl_restarted _ _⟩
  | _ => cases idle.symm.trans (show tx.active = true from allowed)

/-- Transactions that resemble each other reply the same, except that they may tell different starts
before they have begun again, and hand over different counts of attempts to take the clock before
these were collected. -/
theorem respond (R : Resembles b d tx u) (allowed : c.Allowed tx)
    (h : tx.respond s c = some (reply, tx', s')) :
    ∃ reply' u', u.respond s c = some (reply', u', s') ∧
      (reply' = reply ∨ b = false ∧ c = .startTime ∨ d = false ∧ c = .takeLockAttempts) ∧
      Resembles (b || c.restarts) (d || c.collects) tx' u' := by
  cases c with
  | act x =>
    obtain ⟨⟨answer, tx₁, s₁⟩, hperform, heq⟩ := Option.map_eq_some_iff.1 h
    obtain ⟨rfl, rfl, rfl⟩ : _ ∧ _ ∧ _ := by simpa using heq
    obtain ⟨u', hu, R'⟩ : ∃ u', u.perform s x = some (answer, u', s₁) ∧
        Resembles (b || (TxRequest.act x).restarts) (d || (TxRequest.act x).collects) tx₁ u' := by
      cases b with
      | true => exact R.perform_restarted hperform
      | false => exact R.perform_idle allowed hperform
    exact ⟨.act answer, u', by rw [Transaction.respond, hu]; rfl, Or.inl rfl, R'⟩
  | validate =>
    obtain ⟨result, hvalidate, heq⟩ := Option.map_eq_some_iff.1 h
    obtain ⟨rfl, rfl, rfl⟩ : _ ∧ _ ∧ _ := by simpa using heq
    have hsame : u.validate s = tx.validate s := by rw [validate, validate, R.reads]
    refine ⟨_, u, by rw [Transaction.respond, hsame, hvalidate]; rfl, Or.inl rfl, ?_⟩
    simpa [TxRequest.restarts, TxRequest.collects] using R
  | startTime =>
    cases h
    refine ⟨_, u, rfl, ?_, by simpa [TxRequest.restarts, TxRequest.collects] using R⟩
    cases b with
    | true => exact Or.inl (by rw [R.start rfl])
    | false => exact Or.inr (Or.inl ⟨rfl, rfl⟩)
  | look =>
    cases h
    refine ⟨_, u, rfl, Or.inl ?_, by simpa [TxRequest.restarts, TxRequest.collects] using R⟩
    rw [view, view, R.role, R.active, R.reads, R.writes]
  | takeLockAttempts =>
    cases h
    refine ⟨_, _, rfl, ?_, R.role, R.active, R.reads, R.writes, ?_, ?_, fun _ => rfl⟩
    · cases d with
      | true => exact Or.inl (by rw [R.lockAttempts rfl])
      | false => exact Or.inr (Or.inr ⟨rfl, rfl⟩)
    · simpa [TxRequest.restarts] using R.start
    · simpa [TxRequest.restarts] using R.idle

end Resembles

end Transaction

end HybridTM
