import HybridTM.Proofs.Attempt
import HybridTM.Proofs.Runs
import Mathlib.Logic.Function.Basic

/-!
# Transactions on one clock

Any number of transactions share one clock and one memory and make their calls in any order. The
system keeps the history of the memories that were published, what each transaction did since it
began, and a record of the commits that succeeded; none of this is read by a call.

Every call keeps every transaction standing somewhere in the history (`Standing.step`), and it does
one of four things to history, memory and commits (`Effect`).

The clock has 64 bits and does not come round: a call that would take it past its end does not
complete.
-/

set_option autoImplicit false

namespace HybridTM

/-! ## The system -/

/-- Whether a commit of this kind publishes. -/
def CommitKind.publishes : CommitKind → Bool
  | .readWrite | .serial => true
  | .readOnly | .exclusive => false

/-- A commit that succeeded. -/
structure CommitRecord where
  /-- How it committed. -/
  kind : CommitKind
  /-- What the attempt did. -/
  trace : List Access
  /-- The number of publications when the attempt began. -/
  began : Nat
  /-- The number of publications before the commit. -/
  ended : Nat
  /-- The start of the transaction after the commit. -/
  start : Timestamp

/-- A commit is explained by a history. One without writes agrees with a memory that was current at
some moment between the beginning of the attempt and the commit, namely the one its start shows. One
that published agrees with the memory in front of it and made of it the next one. -/
def CommitRecord.Explained (h : History) (c : CommitRecord) : Prop :=
  match c.kind with
  | .readOnly =>
      ReadsOnly c.trace ∧ c.ended ≤ h.count ∧
        ∃ k, c.began ≤ k ∧ k ≤ c.ended ∧ c.start = stamp k ∧ Agrees c.trace (h.memory k)
  | .readWrite | .serial =>
      c.began ≤ c.ended ∧ c.ended < h.count ∧ c.start = stamp (c.ended + 1) ∧
        Agrees c.trace (h.memory c.ended) ∧
        h.memory (c.ended + 1) = after c.trace (h.memory c.ended)
  | .exclusive => False

/-- The history once the clock has moved from one value to another over a memory: a new even value
is a publication. -/
def History.follow (h : History) (c c' : Clock) (m : Memory) : History :=
  if c'.snapshot = c.snapshot then h else h.publish m

/-- Transactions on one clock, with a record of what they did. -/
structure TxSystem (ι : Type) where
  /-- Memory and clock. -/
  shared : Shared
  /-- The transactions. -/
  tx : ι → Transaction
  /-- The memories published so far. -/
  history : History
  /-- The number of publications when a transaction last began. -/
  since : ι → Nat
  /-- The accesses of a transaction since it last began. -/
  trace : ι → List Access
  /-- The commits that succeeded, oldest first. -/
  commits : List CommitRecord

/-- A call of a transaction. -/
inductive TxCall where
  /-- Begin an optimistic attempt. -/
  | begin
  /-- Begin a serial attempt. -/
  | beginSerial
  /-- Read. -/
  | read (a : Addr) (mask : Mask)
  /-- Write. -/
  | write (a : Addr) (v : Word) (mask : Mask)
  /-- Commit. -/
  | commit
  /-- Roll back. -/
  | rollback
  /-- Drop the transaction and make a new one in its place. -/
  | renew

namespace TxSystem

variable {ι : Type} [DecidableEq ι]

/-- The system before any call. -/
def init (m : Memory) : TxSystem ι where
  shared := ⟨m, .zero⟩
  tx := fun _ => .idle .zero
  history := .start m
  since := fun _ => 0
  trace := fun _ => []
  commits := []

/-- The system after a call of one transaction. -/
def update (s : TxSystem ι) (i : ι) (tx : Transaction) (shared : Shared) (since : Nat)
    (trace : List Access) : TxSystem ι :=
  { s with
    shared
    tx := Function.update s.tx i tx
    history := s.history.follow s.shared.clock shared.clock shared.memory
    since := Function.update s.since i since
    trace := Function.update s.trace i trace }

/-- The system after a call of one transaction, which does not complete while it would have to wait
for the clock. -/
def call (s : TxSystem ι) (i : ι) : TxCall → Option (TxSystem ι)
  | .begin => some (s.update i ((s.tx i).begin s.shared.clock) s.shared s.history.count [])
  | .beginSerial =>
      ((s.tx i).beginSerial s.shared.clock).map fun (tx, clock) =>
        s.update i tx { s.shared with clock } s.history.count []
  | .read a mask =>
      ((s.tx i).read s.shared a mask).map fun (result, tx) =>
        s.update i tx s.shared (s.since i) (s.trace i ++ [.read a mask result])
  | .write a v mask =>
      some (s.update i ((s.tx i).write a v mask) s.shared (s.since i)
        (s.trace i ++ [.write a v mask]))
  | .commit =>
      ((s.tx i).commit s.shared).map fun (result, tx, shared) =>
        match result with
        | .error _ => s.update i tx shared (s.since i) (s.trace i)
        | .ok kind =>
            { s.update i tx shared (s.since i) [] with
              commits := s.commits ++ [⟨kind, s.trace i, s.since i, s.history.count, tx.start⟩] }
  | .rollback =>
      let (tx, clock) := (s.tx i).rollback s.shared.clock
      some (s.update i tx { s.shared with clock } (s.since i)
        (if (s.tx i).active then [] else s.trace i))
  | .renew =>
      let clock := (s.tx i).released s.shared.clock
      some (s.update i (.idle clock) { s.shared with clock } (s.since i) [])

/-- One transaction makes one call. The clock does not come round. -/
inductive Step (s : TxSystem ι) : TxSystem ι → Prop
  | call (i : ι) (x : TxCall) {s' : TxSystem ι} (hcall : s.call i x = some s')
      (room : s.shared.clock.now ≤ s'.shared.clock.now) : Step s s'

/-- The states that calls lead to from a memory. -/
def Reachable (m : Memory) (s : TxSystem ι) : Prop :=
  Relation.ReflTransGen Step (init m) s

/-- The state after calls in the given order, if all of them complete. -/
def run (s : TxSystem ι) : List (ι × TxCall) → Option (TxSystem ι)
  | [] => some s
  | (i, x) :: calls =>
      (s.call i x).bind fun s' =>
        if s.shared.clock.now ≤ s'.shared.clock.now then s'.run calls else none

/-- The commits that published, in the order of the commits. -/
def writers (s : TxSystem ι) : List CommitRecord :=
  s.commits.filter (·.kind.publishes)

end TxSystem

/-! ## Every call keeps every attempt -/

namespace TxSystem

variable {ι : Type} [DecidableEq ι]

/-- Every transaction stands somewhere in the history, and at most one is serial. -/
structure Standing (s : TxSystem ι) (held : Bool) : Prop where
  /-- Memory and clock show the end of the history. -/
  shows : s.shared.Shows (fun _ => True) s.history held
  /-- What a transaction did since it began is an attempt. -/
  attempt : ∀ i, ∃ k, Attempt (fun _ => True) s.history s.shared.clock (s.since i) k (s.trace i)
    (s.tx i)
  /-- No transaction is exclusive. -/
  notExclusive : ∀ i, (s.tx i).role ≠ .exclusive
  /-- A serial transaction is active. -/
  active : ∀ i, (s.tx i).role = .serial → (s.tx i).active = true
  /-- There is at most one. -/
  unique : ∀ i j, (s.tx i).role = .serial → (s.tx j).role = .serial → i = j

theorem follow_same {h : History} {n : Nat} {held held' : Bool} (m : Memory) :
    h.follow (.of n held) (.of n held') m = h := by
  simp [History.follow]

theorem follow_next {h : History} {n : Nat} {held : Bool} (hn : n + 1 < clockLimit) (m : Memory) :
    h.follow (.of n held) (.of (n + 1) false) m = h.publish m := by
  rw [History.follow, if_neg]
  rw [Clock.snapshot_of, Clock.snapshot_of, stamp_inj hn (Nat.lt_of_succ_lt hn)]
  omega

namespace Standing

variable {s : TxSystem ι} {held : Bool}

omit [DecidableEq ι] in
theorem init (m : Memory) : Standing (init m : TxSystem ι) false where
  shows := ⟨Clock.zero_eq_of, .refl _ _, Nat.zero_lt_succ _⟩
  attempt _ := ⟨0, .of_empty (Nat.le_refl 0) (Nat.le_refl 0) rfl rfl rfl rfl⟩
  notExclusive _ := by simp [TxSystem.init, Transaction.idle]
  active _ hr := by simp [TxSystem.init, Transaction.idle] at hr
  unique _ _ hr := by simp [TxSystem.init, Transaction.idle] at hr

omit [DecidableEq ι] in
/-- A serial transaction holds the clock. -/
theorem held_of_serial (I : Standing s held) {i : ι} (hr : (s.tx i).role = .serial) :
    held = true := by
  obtain ⟨k, A⟩ := I.attempt i
  exact A.held_of_serial I.shows hr

omit [DecidableEq ι] in
theorem optimistic (I : Standing s held) {i : ι} (hr : (s.tx i).role ≠ .serial) :
    (s.tx i).role.isIrrevocable = false := by
  have := I.notExclusive i
  cases hrole : (s.tx i).role <;> simp_all [Role.isIrrevocable]

/-- A call of one transaction keeps the others standing where they stand, if it leaves clock and
history alone or if no other transaction is serial. -/
theorem update (I : Standing s held) {i : ι} {tx : Transaction} {shared : Shared} {since : Nat}
    {trace : List Access} {h' : History} {held' : Bool}
    (hh : s.history.follow s.shared.clock shared.clock shared.memory = h')
    (S : shared.Shows (fun _ => True) h' held')
    (A : ∃ k, Attempt (fun _ => True) h' shared.clock since k trace tx)
    (hrole : tx.role ≠ .exclusive) (hactive : tx.role = .serial → tx.active = true)
    (others : (h' = s.history ∧ shared.clock = s.shared.clock) ∨
      (s.history.count ≤ h'.count ∧ (∀ k, k ≤ s.history.count → h'.memory k = s.history.memory k) ∧
        ∀ j, j ≠ i → (s.tx j).role ≠ .serial))
    (alone : tx.role = .serial → ∀ j, j ≠ i → (s.tx j).role ≠ .serial) :
    Standing (s.update i tx shared since trace) held' where
  shows := by
    show shared.Shows _ (s.history.follow _ _ _) held'
    rw [hh]
    exact S
  attempt j := by
    show ∃ k, Attempt _ (s.history.follow _ _ _) shared.clock (Function.update s.since i since j) k
      (Function.update s.trace i trace j) (Function.update s.tx i tx j)
    rw [hh]
    by_cases hj : j = i
    · subst hj
      simpa using A
    · simp only [Function.update_of_ne hj]
      obtain ⟨k, B⟩ := I.attempt j
      refine ⟨k, ?_⟩
      -- The others see the same history, or a longer one while none of them is serial.
      rcases others with ⟨rfl, hclock⟩ | ⟨hcount, hmem, hserial⟩
      · rw [hclock]
        exact B
      · exact B.of_others (I.optimistic (hserial j hj)) hcount (hmem k B.le_count) _
  notExclusive j := by
    by_cases hj : j = i
    · subst hj
      simpa [TxSystem.update] using hrole
    · simpa [TxSystem.update, Function.update_of_ne hj] using I.notExclusive j
  active j := by
    by_cases hj : j = i
    · subst hj
      simpa [TxSystem.update] using hactive
    · simpa [TxSystem.update, Function.update_of_ne hj] using I.active j
  unique j l := by
    by_cases hj : j = i <;> by_cases hl : l = i
    · subst hj hl
      exact fun _ _ => rfl
    · subst hj
      simp only [TxSystem.update, Function.update_self, Function.update_of_ne hl]
      exact fun hr hr' => absurd hr' (alone hr l hl)
    · subst hl
      simp only [TxSystem.update, Function.update_self, Function.update_of_ne hj]
      exact fun hr hr' => absurd hr (alone hr' j hj)
    · simpa only [TxSystem.update, Function.update_of_ne hj, Function.update_of_ne hl]
        using I.unique j l

/-- A call that leaves clock and memory alone keeps the history. -/
theorem update_quiet (I : Standing s held) {i : ι} {tx : Transaction} {since : Nat}
    {trace : List Access}
    (A : ∃ k, Attempt (fun _ => True) s.history s.shared.clock since k trace tx)
    (hrole : tx.role ≠ .exclusive) (hactive : tx.role = .serial → tx.active = true)
    (alone : tx.role = .serial → (s.tx i).role = .serial) :
    Standing (s.update i tx s.shared since trace) held := by
  refine I.update ?_ I.shows A hrole hactive (Or.inl ⟨rfl, rfl⟩) ?_
  · rw [I.shows.clock]
    exact follow_same _
  · intro hr j hj hr'
    exact hj (I.unique j i hr' (alone hr))

/-- A call that publishes a memory makes it the last of the history. -/
theorem update_publish (I : Standing s held) {i : ι} {tx : Transaction} {since : Nat}
    {trace : List Access} {m : Memory} (hroom : s.history.count + 1 < clockLimit)
    (A : ∃ k, Attempt (fun _ => True) (s.history.publish m) (.of (s.history.count + 1) false)
      since k trace tx)
    (hrole : tx.role = .readOnly) (hserial : ∀ j, j ≠ i → (s.tx j).role ≠ .serial) :
    Standing (s.update i tx ⟨m, .of (s.history.count + 1) false⟩ since trace) false := by
  have hfollow : s.history.follow s.shared.clock (.of (s.history.count + 1) false) m =
      s.history.publish m := by
    rw [I.shows.clock]
    exact follow_next hroom m
  have S : Shared.Shows ⟨m, .of (s.history.count + 1) false⟩ (fun _ => True)
      (s.history.publish m) false := by
    refine ⟨rfl, ?_, hroom⟩
    rw [History.last_publish]
    exact .refl _ m
  exact I.update hfollow S A (by rw [hrole]; decide) (fun hr => by rw [hrole] at hr; cases hr)
    (Or.inr ⟨Nat.le_succ _, fun k hk => History.memory_publish_of_le hk m, hserial⟩)
    (fun hr => by rw [hrole] at hr; cases hr)

end Standing

/-- What a call does to history, memory and commits. -/
inductive Effect (s s' : TxSystem ι) : Prop
  /-- Nothing. -/
  | quiet (history : s'.history = s.history) (memory : s'.shared.memory = s.shared.memory)
      (commits : s'.commits = s.commits)
  /-- A commit without writes. -/
  | readOnly (c : CommitRecord) (kind : c.kind = .readOnly) (explained : c.Explained s.history)
      (history : s'.history = s.history) (memory : s'.shared.memory = s.shared.memory)
      (commits : s'.commits = s.commits ++ [c])
  /-- A commit that publishes what its attempt makes of memory. -/
  | publish (c : CommitRecord) (kind : c.kind.publishes = true)
      (began : c.began ≤ c.ended) (ended : c.ended = s.history.count)
      (start : c.start = stamp (c.ended + 1)) (agrees : Agrees c.trace s.history.last)
      (memory : s'.shared.memory = after c.trace s.shared.memory)
      (history : s'.history = s.history.publish s'.shared.memory)
      (commits : s'.commits = s.commits ++ [c])
  /-- The end of a serial attempt that publishes memory as it is. -/
  | abandon (history : s'.history = s.history.publish s'.shared.memory)
      (memory : s'.shared.memory = s.shared.memory) (commits : s'.commits = s.commits)

namespace Standing

variable {s s' : TxSystem ι} {held : Bool}

omit [DecidableEq ι] in
/-- While one transaction can publish no other is serial. -/
theorem others_not_serial (I : Standing s held) {i : ι}
    (h : held = false ∨ (s.tx i).role = .serial) (j : ι) (hj : j ≠ i) :
    (s.tx j).role ≠ .serial := by
  intro hr
  rcases h with rfl | hi
  · cases I.held_of_serial hr
  · exact hj (I.unique j i hr hi)

omit [DecidableEq ι] in
/-- A clock that is only taken or not touched publishes nothing. -/
theorem follow_count (I : Standing s held) (held' : Bool) (m : Memory) :
    s.history.follow s.shared.clock (.of s.history.count held') m = s.history := by
  rw [I.shows.clock]
  exact follow_same m

omit [DecidableEq ι] in
theorem follow_clock (I : Standing s held) (m : Memory) :
    s.history.follow s.shared.clock s.shared.clock m = s.history := by
  rw [I.shows.clock]
  exact follow_same m

omit [DecidableEq ι] in
/-- A clock that goes on by one count publishes. -/
theorem follow_succ (I : Standing s held) (hroom : s.history.count + 1 < clockLimit) (m : Memory) :
    s.history.follow s.shared.clock (.of (s.history.count + 1) false) m = s.history.publish m := by
  rw [I.shows.clock]
  exact follow_next hroom m

theorem effect_quiet (I : Standing s held) {i : ι} {tx : Transaction} {since : Nat}
    {trace : List Access} : Effect s (s.update i tx s.shared since trace) :=
  .quiet (I.follow_clock _) rfl rfl

/-- When a transaction ends its attempt without a commit, it either leaves clock and memory alone
or, if it was serial, releases the clock over the memory as it is. -/
theorem end_attempt (I : Standing s held) (i : ι) {tx : Transaction} (hrole : tx.role = .readOnly)
    (hreads : tx.reads = .empty) (hwrites : tx.writes = .empty)
    (hstart : tx.start = (s.tx i).start ∨
      tx.start = ((s.tx i).released s.shared.clock).snapshot)
    (room : s.shared.clock.now ≤ ((s.tx i).released s.shared.clock).now) :
    let s' := s.update i tx { s.shared with clock := (s.tx i).released s.shared.clock }
      (s.since i) []
    (∃ held', Standing s' held') ∧ Effect s s' := by
  obtain ⟨k, A⟩ := I.attempt i
  have hreleased := A.released (I.active i)
  -- A serial attempt moves the clock, so that memory is published once more.
  by_cases hserial : (s.tx i).role = .serial
  · rw [if_pos hserial] at hreleased
    rw [hreleased] at room hstart ⊢
    have hroom : s.history.count + 1 < clockLimit :=
      Clock.succ_lt_clockLimit I.shows.room (I.shows.clock ▸ room)
    have hstart' : ∃ k', s.since i ≤ k' ∧ k' ≤ s.history.count + 1 ∧ tx.start = stamp k' := by
      rcases hstart with hst | hst
      · exact ⟨k, A.since_le, Nat.le_succ_of_le A.le_count, by rw [hst, (A.serial hserial).2.1]⟩
      · exact ⟨s.history.count + 1, Nat.le_succ_of_le (Nat.le_trans A.since_le A.le_count),
          Nat.le_refl _, by rw [hst, Clock.snapshot_of]⟩
    obtain ⟨k', hk, hk', hst⟩ := hstart'
    refine ⟨⟨false, I.update_publish hroom ⟨k', .of_empty hk hk' hrole hst hreads hwrites⟩ hrole
      (I.others_not_serial (Or.inr hserial))⟩, ?_⟩
    exact .abandon (I.follow_succ hroom _) rfl rfl
  · rw [if_neg hserial] at hreleased
    rw [hreleased] at hstart ⊢
    have hstart' : ∃ k', s.since i ≤ k' ∧ k' ≤ s.history.count ∧ tx.start = stamp k' := by
      rcases hstart with hst | hst
      · exact ⟨k, A.since_le, A.le_count, by rw [hst, (A.optimistic (I.optimistic hserial)).1]⟩
      · exact ⟨s.history.count, Nat.le_trans A.since_le A.le_count, Nat.le_refl _,
          by rw [hst, I.shows.clock, Clock.snapshot_of]⟩
    obtain ⟨k', hk, hk', hst⟩ := hstart'
    refine ⟨⟨held, I.update_quiet ⟨k', .of_empty hk hk' hrole hst hreads hwrites⟩
      (by rw [hrole]; decide) (fun hr => ?_) (fun hr => ?_)⟩, I.effect_quiet⟩
    · rw [hrole] at hr; cases hr
    · rw [hrole] at hr; cases hr

theorem commit (I : Standing s held) {i : ι} (hcall : s.call i .commit = some s')
    (room : s.shared.clock.now ≤ s'.shared.clock.now) :
    (∃ held', Standing s' held') ∧ Effect s s' := by
  obtain ⟨⟨result, tx, shared⟩, hc, rfl⟩ := Option.map_eq_some_iff.1 hcall
  obtain ⟨k, A⟩ := I.attempt i
  rcases A.commit I.shows hc with ⟨e, rfl, rfl, hrole, hactive, A'⟩ |
    ⟨rfl, rfl, hreads, hrole, rfl⟩ | ⟨kind, n, rfl, hkind, hlast, rfl, rfl⟩ | ⟨-, hrole, -⟩
  · -- A failed commit leaves the attempt as it is.
    refine ⟨⟨held, I.update_quiet ⟨k, A'⟩ (hrole ▸ I.notExclusive i) (fun hr => ?_) fun hr => ?_⟩,
      I.effect_quiet⟩
    · rw [hactive]
      exact I.active i (hrole ▸ hr)
    · exact hrole ▸ hr
  · -- A commit without writes ends the attempt and nothing else.
    have hstart := (A.optimistic (by rw [hrole]; rfl)).1
    have I' : Standing (s.update i (s.tx i).finish s.shared (s.since i) []) held :=
      I.update_quiet ⟨k, .of_empty A.since_le A.le_count rfl hstart rfl rfl⟩
        (by simp [Transaction.finish]) (fun hr => by cases hr) (fun hr => by cases hr)
    let c : CommitRecord := ⟨.readOnly, s.trace i, s.since i, s.history.count, (s.tx i).start⟩
    have hc : c.Explained s.history :=
      ⟨hreads, Nat.le_refl _, k, A.since_le, A.le_count, hstart, A.agrees⟩
    exact ⟨⟨held, { I' with }⟩, .readOnly c rfl hc (I.follow_clock _) rfl rfl⟩
  · -- A writer makes its memory the last one.
    have hwriter : held = false ∨ (s.tx i).role = .serial := by
      rcases hkind with ⟨-, -, hheld⟩ | ⟨-, hrole⟩
      · exact Or.inl hheld
      · exact Or.inr hrole
    have hpublishes : kind.publishes = true := by
      rcases hkind with ⟨rfl, -⟩ | ⟨rfl, -⟩ <;> rfl
    have hroom : s.history.count + 1 < clockLimit :=
      Clock.succ_lt_clockLimit I.shows.room (I.shows.clock ▸ room)
    let tx : Transaction := { s.tx i with start := stamp (s.history.count + 1), lockAttempts := n }
    have A' : Attempt (fun _ => True) (s.history.publish (after (s.trace i) s.shared.memory))
        (.of (s.history.count + 1) false) (s.since i) (s.history.count + 1) [] tx.finish :=
      .of_empty (Nat.le_succ_of_le (Nat.le_trans A.since_le A.le_count)) (Nat.le_refl _) rfl rfl rfl
        rfl
    have I' := I.update_publish hroom ⟨_, A'⟩ rfl (I.others_not_serial hwriter)
    let c : CommitRecord := ⟨kind, s.trace i, s.since i, s.history.count, tx.start⟩
    have hbegan : c.began ≤ c.ended := Nat.le_trans A.since_le A.le_count
    exact ⟨⟨false, { I' with }⟩, .publish c hpublishes hbegan rfl rfl hlast rfl
      (I.follow_succ hroom _) rfl⟩
  · exact absurd hrole (I.notExclusive i)

/-- Every call keeps every transaction standing, and there are four things it can do to history,
memory and commits. -/
theorem step (I : Standing s held) (hstep : Step s s') : (∃ held', Standing s' held') ∧
    Effect s s' := by
  obtain ⟨i, x, hcall, room⟩ := hstep
  obtain ⟨k, A⟩ := I.attempt i
  cases x with
  | begin =>
    cases hcall
    exact ⟨⟨held, I.update_quiet ⟨_, .begin I.shows (s.tx i)⟩ (by simp [Transaction.begin,
      Transaction.reset]) (fun hr => by cases hr) (fun hr => by cases hr)⟩, I.effect_quiet⟩
  | beginSerial =>
    obtain ⟨⟨tx, clock⟩, hb, rfl⟩ := Option.map_eq_some_iff.1 hcall
    -- The clock was free, so no other transaction is serial.
    obtain ⟨rfl, rfl, hrole, hactive, A'⟩ := Attempt.beginSerial I.shows hb
    have hother := I.others_not_serial (i := i) (Or.inl rfl)
    have hfollow := I.follow_count true s.shared.memory
    refine ⟨⟨true, I.update hfollow ⟨rfl, I.shows.memory, I.shows.room⟩ ⟨_, A'⟩ ?_ ?_ ?_ ?_⟩, ?_⟩
    · rw [hrole]; decide
    · exact fun _ => hactive
    · exact Or.inr ⟨Nat.le_refl _, fun _ _ => rfl, hother⟩
    · exact fun _ => hother
    · exact .quiet hfollow rfl rfl
  | read a mask =>
    obtain ⟨⟨result, tx⟩, hr, rfl⟩ := Option.map_eq_some_iff.1 hcall
    obtain ⟨k', -, A'⟩ := A.read I.shows trivial hr
    obtain ⟨hrole, hactive, -⟩ := Transaction.kept_read hr
    refine ⟨⟨held, I.update_quiet ⟨k', A'⟩ ?_ ?_ ?_⟩, I.effect_quiet⟩
    · rw [hrole]; exact I.notExclusive i
    · rw [hrole, hactive]; exact I.active i
    · rw [hrole]; exact id
  | write a v mask =>
    cases hcall
    refine ⟨⟨held, I.update_quiet ⟨k, A.write trivial v mask⟩ ?_ ?_ ?_⟩, I.effect_quiet⟩ <;>
      rcases Transaction.role_write (s.tx i) a v mask with ⟨hrole, -⟩ | ⟨hrole, -⟩ <;> rw [hrole]
    · decide
    · exact I.notExclusive i
    · exact fun hr => by cases hr
    · exact I.active i
    · exact fun hr => by cases hr
    · exact id
  | commit => exact I.commit hcall room
  | rollback =>
    simp only [call, Transaction.rollback, Option.some.injEq] at hcall
    subst hcall
    by_cases hactive : (s.tx i).active = true
    · simp only [if_pos hactive] at room ⊢
      exact I.end_attempt i rfl rfl rfl (Or.inl rfl) room
    · simp only [if_neg hactive]
      exact ⟨⟨held, I.update_quiet ⟨k, A⟩ (I.notExclusive i) (I.active i) id⟩, I.effect_quiet⟩
  | renew =>
    cases hcall
    exact I.end_attempt i rfl rfl rfl (Or.inr rfl) room

end Standing

omit [DecidableEq ι] in
/-- Memory is the last one of the history. -/
theorem Standing.memory_eq_last {s : TxSystem ι} {held : Bool} (I : Standing s held) :
    s.shared.memory = s.history.last := by
  apply Memory.ext
  funext a
  exact I.shows.memory a trivial

end TxSystem

end HybridTM
