import HybridTM.Proofs.TxRequests
import Mathlib.Data.List.Forall2
import Mathlib.Logic.Function.Basic

/-!
# Attempts that leave no trace

Any number of transactions are called in any order. Take an optimistic attempt that ends without
publishing anything: in a commit without writes, in a rollback, perhaps after a failed commit, or in
a drop. When all of its calls are taken out of a run, every other call is still possible and is
replied to in the same way, and after each of them memory, clock and all other transactions are as
they were (`SharedTransactions.attempt_invisible`).

The transaction that made the attempt remembers two things of it: the start, until it begins again,
and how often it tried to take the clock, until that count is taken. Only a call that asks it for
these can tell the difference, and `SharedTransactions.lockAttempts_visible` is a run in which one
does.
-/

set_option autoImplicit false

namespace HybridTM

/-- Transactions on one memory and one clock. -/
structure SharedTransactions (ι : Type) where
  /-- Memory and clock. -/
  shared : Shared
  /-- The transactions. -/
  tx : ι → Transaction

/-- A call that was made. -/
structure Made (ι : Type) where
  /-- The transaction. -/
  agent : ι
  /-- The call. -/
  call : TxRequest
  /-- The reply. -/
  reply : TxReply
  /-- What it led to. -/
  state : SharedTransactions ι

namespace SharedTransactions

variable {ι : Type} [DecidableEq ι]

/-- New transactions over a memory. -/
def init (m : Memory) : SharedTransactions ι := ⟨⟨m, .zero⟩, fun _ => .idle .zero⟩

/-- Call a transaction as callers promise to. -/
def make (s : SharedTransactions ι) (i : ι) (c : TxRequest) : Option (Made ι) :=
  if c.Allowed (s.tx i) then
    ((s.tx i).respond s.shared c).map fun (reply, tx, shared) =>
      ⟨i, c, reply, shared, Function.update s.tx i tx⟩
  else none

/-- The calls made in the given order, if all of them are possible, and what they led to. -/
def run (s : SharedTransactions ι) :
    List (ι × TxRequest) → Option (List (Made ι) × SharedTransactions ι)
  | [] => some ([], s)
  | (i, c) :: calls => do
      let x ← s.make i c
      let (made, s') ← x.state.run calls
      some (x :: made, s')

/-- Two states differ in one transaction at most. -/
structure Beside (i : ι) (s s' : SharedTransactions ι) : Prop where
  /-- Memory and clock are the same. -/
  shared : s'.shared = s.shared
  /-- So are the other transactions. -/
  others : ∀ j, j ≠ i → s'.tx j = s.tx j

end SharedTransactions

namespace Made

variable {ι : Type}

/-- The same call with the same reply leads to states that differ in one transaction at most. -/
structure Beside (i : ι) (x x' : Made ι) : Prop where
  /-- The same transaction is called. -/
  agent : x'.agent = x.agent
  /-- It is called for the same. -/
  call : x'.call = x.call
  /-- It replies the same. -/
  reply : x'.reply = x.reply
  /-- Beside one transaction everything is the same after it. -/
  state : x.state.Beside i x'.state

variable [DecidableEq ι]

/-- Whether the transaction has begun again after a call, if it had or had not before. -/
def restarted (i : ι) (b : Bool) (x : Made ι) : Bool :=
  b || (decide (x.agent = i) && x.call.restarts)

/-- Whether its count was taken after a call, if it was or was not before. -/
def collected (i : ι) (d : Bool) (x : Made ι) : Bool :=
  d || (decide (x.agent = i) && x.call.collects)

/-- The same call leads to states that differ at most in what one transaction remembers of an
attempt that is over: the start, unless it has begun again, and the count, unless that was taken.
The reply is the same, unless it tells what is remembered. -/
structure Echoes (i : ι) (b d : Bool) (x x' : Made ι) : Prop where
  /-- The same transaction is called. -/
  agent : x'.agent = x.agent
  /-- It is called for the same. -/
  call : x'.call = x.call
  /-- It replies the same, unless it tells what is remembered. -/
  reply : x'.reply = x.reply ∨
    x.agent = i ∧ (b = false ∧ x.call = .startTime ∨ d = false ∧ x.call = .takeLockAttempts)
  /-- Beside the one transaction everything is the same after it. -/
  state : x.state.Beside i x'.state
  /-- The transaction itself is the same apart from what is remembered. -/
  own : Transaction.Resembles (x.restarted i b) (x.collected i d) (x.state.tx i) (x'.state.tx i)

/-- Call by call. -/
inductive AllEcho (i : ι) : (b d : Bool) → List (Made ι) → List (Made ι) → Prop
  | nil (b d : Bool) : AllEcho i b d [] []
  | cons {b d : Bool} {x x' : Made ι} {made made' : List (Made ι)} (echoes : Echoes i b d x x')
      (rest : AllEcho i (x.restarted i b) (x.collected i d) made made') :
      AllEcho i b d (x :: made) (x' :: made')

end Made

namespace SharedTransactions

variable {ι : Type} [DecidableEq ι] {i j : ι} {c : TxRequest} {s s' : SharedTransactions ι}
  {x : Made ι} {calls : List (ι × TxRequest)} {made : List (Made ι)}

/-! ## Calls -/

theorem make_eq_some_iff : s.make i c = some x ↔ c.Allowed (s.tx i) ∧
    ∃ reply tx shared, (s.tx i).respond s.shared c = some (reply, tx, shared) ∧
      x = ⟨i, c, reply, shared, Function.update s.tx i tx⟩ := by
  unfold make
  split
  · next allowed =>
    constructor
    · intro h
      obtain ⟨⟨reply, tx, shared⟩, hrespond, rfl⟩ := Option.map_eq_some_iff.1 h
      exact ⟨allowed, reply, tx, shared, hrespond, rfl⟩
    · rintro ⟨-, reply, tx, shared, hrespond, rfl⟩
      rw [hrespond]
      rfl
  · next denied => exact ⟨nofun, fun h => absurd h.1 denied⟩

/-- What the one transaction does to itself makes no difference beside it. -/
theorem Beside.update (B : s.Beside i s') (tx : Transaction) :
    Beside i ⟨s.shared, Function.update s.tx i tx⟩ s' where
  shared := B.shared
  others j hj := (B.others j hj).trans (Function.update_of_ne hj _ _).symm

/-- Whoever is the same in both states replies the same, and nothing else changes. -/
theorem Beside.make (B : s.Beside i s') (hj : j ≠ i) (h : s.make j c = some x) :
    ∃ x', s'.make j c = some x' ∧ x.Beside i x' ∧ x.state.tx i = s.tx i ∧
      x'.state.tx i = s'.tx i := by
  obtain ⟨allowed, reply, tx, shared, hrespond, rfl⟩ := make_eq_some_iff.1 h
  have hmake : s'.make j c = some ⟨j, c, reply, shared, Function.update s'.tx j tx⟩ := by
    rw [make_eq_some_iff, B.others j hj, B.shared]
    exact ⟨allowed, reply, tx, shared, hrespond, rfl⟩
  refine ⟨_, hmake, ⟨rfl, rfl, rfl, rfl, fun l hl => ?_⟩, Function.update_of_ne hj.symm _ _,
    Function.update_of_ne hj.symm _ _⟩
  by_cases hlj : l = j
  · subst hlj
    simp
  · simp only [Function.update_of_ne hlj]
    exact B.others l hl

/-- A call of the one transaction is echoed by its counterpart. -/
theorem Beside.echo_own (B : s.Beside i s') {b d : Bool}
    (R : Transaction.Resembles b d (s.tx i) (s'.tx i)) (h : s.make i c = some x) :
    ∃ x', s'.make i c = some x' ∧ Made.Echoes i b d x x' := by
  obtain ⟨allowed, reply, tx, shared, hrespond, rfl⟩ := make_eq_some_iff.1 h
  obtain ⟨reply', tx', hrespond', hreply, R'⟩ := R.respond allowed hrespond
  rw [← B.shared] at hrespond'
  have hmake : s'.make i c = some ⟨i, c, reply', shared, Function.update s'.tx i tx'⟩ :=
    make_eq_some_iff.2 ⟨R.allowed allowed, reply', tx', shared, hrespond', rfl⟩
  refine ⟨_, hmake, rfl, rfl, ?_, ⟨rfl, fun j hj => ?_⟩, ?_⟩
  · rcases hreply with hreply | hreply
    · exact Or.inl hreply
    · exact Or.inr ⟨rfl, hreply⟩
  · simp only [Function.update_of_ne hj]
    exact B.others j hj
  · simpa [Made.restarted, Made.collected] using R'

/-- Every call is echoed. -/
theorem Beside.echo (B : s.Beside i s') {b d : Bool}
    (R : Transaction.Resembles b d (s.tx i) (s'.tx i)) (h : s.make j c = some x) :
    ∃ x', s'.make j c = some x' ∧ Made.Echoes i b d x x' := by
  by_cases hj : j = i
  · subst hj
    exact B.echo_own R h
  · have hagent : x.agent = j := by
      obtain ⟨-, reply, tx, shared, -, rfl⟩ := make_eq_some_iff.1 h
      rfl
    obtain ⟨x', hmake, beside, hown, hown'⟩ := B.make hj h
    refine ⟨x', hmake, beside.agent, beside.call, Or.inl beside.reply, beside.state, ?_⟩
    rw [hown, hown']
    simpa [Made.restarted, Made.collected, hagent, hj] using R

/-! ## Runs -/

theorem run_cons_eq_some_iff {t : SharedTransactions ι} : s.run ((i, c) :: calls) = some (made, t) ↔
    ∃ x rest, s.make i c = some x ∧ x.state.run calls = some (rest, t) ∧ made = x :: rest := by
  constructor
  · intro h
    obtain ⟨x, hmake, h⟩ := Option.bind_eq_some_iff.1 h
    obtain ⟨⟨rest, t'⟩, hrun, h⟩ := Option.bind_eq_some_iff.1 h
    obtain ⟨rfl, rfl⟩ := Prod.mk.inj (Option.some.inj h)
    exact ⟨x, rest, hmake, hrun, rfl⟩
  · rintro ⟨x, rest, hmake, hrun, rfl⟩
    simp [run, hmake, hrun]

/-- After the attempt every call is echoed. -/
theorem Beside.run (B : s.Beside i s') {b d : Bool}
    (R : Transaction.Resembles b d (s.tx i) (s'.tx i)) {t : SharedTransactions ι}
    (h : s.run calls = some (made, t)) :
    ∃ made' t', s'.run calls = some (made', t') ∧ Made.AllEcho i b d made made' := by
  induction calls generalizing s s' b d made with
  | nil =>
    cases h
    exact ⟨[], s', rfl, .nil b d⟩
  | cons y calls ih =>
    obtain ⟨j, c⟩ := y
    obtain ⟨x, rest, hmake, hrun, rfl⟩ := run_cons_eq_some_iff.1 h
    obtain ⟨x', hmake', echoes⟩ := B.echo R hmake
    obtain ⟨rest', t', hrun', echo⟩ := ih echoes.state echoes.own hrun
    exact ⟨x' :: rest', t', run_cons_eq_some_iff.2 ⟨x', rest', hmake', hrun', rfl⟩,
      .cons echoes echo⟩

/-- While the attempt is under way its own calls can be left out. -/
theorem Beside.run_others (B : s.Beside i s') (O : (s.tx i).Optimistic) {t : SharedTransactions ι}
    (h : s.run calls = some (made, t))
    (underway : ∀ x ∈ made, x.agent = i → (x.state.tx i).active = true) :
    ∃ made' t', s'.run (calls.filter fun y => y.1 ≠ i) = some (made', t') ∧
      List.Forall₂ (Made.Beside i) (made.filter fun x => x.agent ≠ i) made' ∧
      t.Beside i t' ∧ (t.tx i).Optimistic ∧ t'.tx i = s'.tx i := by
  induction calls generalizing s s' made with
  | nil =>
    cases h
    exact ⟨[], s', rfl, .nil, B, O, rfl⟩
  | cons y calls ih =>
    obtain ⟨j, c⟩ := y
    obtain ⟨x, rest, hmake, hrun, rfl⟩ := run_cons_eq_some_iff.1 h
    have hagent : x.agent = j := by
      obtain ⟨-, reply, tx, shared, -, rfl⟩ := make_eq_some_iff.1 hmake
      rfl
    have underway' : ∀ x ∈ rest, x.agent = i → (x.state.tx i).active = true :=
      fun x hx => underway x (List.mem_cons_of_mem _ hx)
    by_cases hj : j = i
    · -- A call of the attempt changes the one transaction only.
      subst hj
      have hactive := underway x List.mem_cons_self hagent
      obtain ⟨allowed, reply, tx, shared, hrespond, rfl⟩ := make_eq_some_iff.1 hmake
      simp only [Function.update_self] at hactive
      obtain ⟨O', rfl⟩ := O.respond allowed hrespond hactive
      obtain ⟨made', t', hrun', beside⟩ := ih (B.update tx) (by simpa using O') hrun underway'
      refine ⟨made', t', ?_, ?_⟩
      · simpa using hrun'
      · simpa using beside
    · obtain ⟨x', hmake', beside, hown, hown'⟩ := B.make hj hmake
      obtain ⟨rest', t', hrun', alike, B', O', hkept⟩ :=
        ih beside.state (by rw [hown]; exact O) hrun underway'
      refine ⟨x' :: rest', t', ?_, ?_, B', O', hkept.trans hown'⟩
      · rw [List.filter_cons_of_pos (by simpa using hj)]
        exact run_cons_eq_some_iff.2 ⟨x', rest', hmake', hrun', rfl⟩
      · rw [List.filter_cons_of_pos (by simpa [hagent] using hj)]
        exact .cons beside alike

theorem run_append_eq_some_iff {more : List (ι × TxRequest)} {t : SharedTransactions ι} :
    s.run (calls ++ more) = some (made, t) ↔ ∃ made₁ s₁ made₂, s.run calls = some (made₁, s₁) ∧
      s₁.run more = some (made₂, t) ∧ made = made₁ ++ made₂ := by
  induction calls generalizing s made with
  | nil =>
    constructor
    · intro h
      exact ⟨[], s, made, rfl, h, rfl⟩
    · rintro ⟨made₁, s₁, made₂, h₁, h₂, rfl⟩
      cases h₁
      exact h₂
  | cons y calls ih =>
    obtain ⟨i, c⟩ := y
    rw [List.cons_append, run_cons_eq_some_iff]
    constructor
    · rintro ⟨x, rest, hmake, hrun, rfl⟩
      obtain ⟨made₁, s₁, made₂, h₁, h₂, rfl⟩ := ih.1 hrun
      exact ⟨x :: made₁, s₁, made₂, run_cons_eq_some_iff.2 ⟨x, made₁, hmake, h₁, rfl⟩, h₂, rfl⟩
    · rintro ⟨made₁, s₁, made₂, h₁, h₂, rfl⟩
      obtain ⟨x, rest, hmake, hrun, rfl⟩ := run_cons_eq_some_iff.1 h₁
      exact ⟨x, rest ++ made₂, hmake, ih.2 ⟨rest, s₁, made₂, hrun, h₂, rfl⟩, rfl⟩

theorem length_of_run {t : SharedTransactions ι} (h : s.run calls = some (made, t)) :
    made.length = calls.length := by
  induction calls generalizing s made with
  | nil =>
    cases h
    rfl
  | cons y calls ih =>
    obtain ⟨x, rest, -, hrun, rfl⟩ := run_cons_eq_some_iff.1 h
    rw [List.length_cons, List.length_cons, ih hrun]

/-- Nothing is left of attempts that are over. -/
theorem idle_of_run (idle : ∀ i, (s.tx i).active = false → (s.tx i).Idle) {t : SharedTransactions ι}
    (h : s.run calls = some (made, t)) (i : ι) : (t.tx i).active = false → (t.tx i).Idle := by
  induction calls generalizing s made with
  | nil =>
    cases h
    exact idle i
  | cons y calls ih =>
    obtain ⟨j, c⟩ := y
    obtain ⟨x, rest, hmake, hrun, rfl⟩ := run_cons_eq_some_iff.1 h
    refine ih (fun l hover => ?_) hrun
    obtain ⟨allowed, reply, tx, shared, hrespond, rfl⟩ := make_eq_some_iff.1 hmake
    by_cases hl : l = j
    · subst hl
      simp only [Function.update_self] at hover ⊢
      exact Transaction.idle_respond (idle l) allowed hrespond hover
    · simp only [Function.update_of_ne hl] at hover ⊢
      exact idle l hover

/-! ## The attempt -/

/-- An optimistic attempt that publishes nothing is invisible: it begins, stays under way through
further calls, and ends in a commit without writes, in a rollback or in a drop. Without its calls
every other call in the run is still possible and is replied to in the same way, except that the
transaction itself may tell another start until it begins again, and hand over another count of
attempts to take the clock the first time it is asked; and after each call memory, clock and all
other transactions are the same. -/
theorem attempt_invisible {m : Memory} {before during after : List (ι × TxRequest)}
    {last : TxRequest} {made₀ made₁ made₂ : List (Made ι)} {first final : Made ι}
    {t : SharedTransactions ι}
    (run : (init m).run (before ++ (i, .act .begin) :: (during ++ (i, last) :: after)) =
      some (made₀ ++ first :: (made₁ ++ final :: made₂), t))
    (length₀ : made₀.length = before.length) (length₁ : made₁.length = during.length)
    (underway : ∀ x ∈ made₁, x.agent = i → (x.state.tx i).active = true)
    (quiet : last.EndsQuietly final.reply) :
    ∃ made₁' made₂' t', (init m).run (before ++ ((during.filter fun y => y.1 ≠ i) ++ after)) =
        some (made₀ ++ (made₁' ++ made₂'), t') ∧
      List.Forall₂ (Made.Beside i) (made₁.filter fun x => x.agent ≠ i) made₁' ∧
      Made.AllEcho i false false made₂ made₂' := by
  -- The run falls into the calls before the attempt, those during it, and those after it.
  obtain ⟨l₀, s₀, l, run₀, run, hmade⟩ := run_append_eq_some_iff.1 run
  obtain ⟨rfl, rfl⟩ := List.append_inj hmade (length₀.trans (length_of_run run₀).symm)
  obtain ⟨x, l, begins, run, hmade⟩ := run_cons_eq_some_iff.1 run
  obtain ⟨rfl, rfl⟩ := List.cons.inj hmade
  obtain ⟨l₁, s₁, l, run₁, run, hmade⟩ := run_append_eq_some_iff.1 run
  obtain ⟨rfl, rfl⟩ := List.append_inj hmade (length₁.trans (length_of_run run₁).symm)
  obtain ⟨x, l₂, ends, run₂, hmade⟩ := run_cons_eq_some_iff.1 run
  obtain ⟨rfl, rfl⟩ := List.cons.inj hmade
  -- Its beginning changes the transaction only.
  obtain ⟨ended, reply, tx, shared, hbegin, rfl⟩ := make_eq_some_iff.1 begins
  obtain ⟨O, rfl⟩ := Transaction.optimistic_begin hbegin
  have same : s₀.Beside i s₀ := ⟨rfl, fun _ _ => rfl⟩
  obtain ⟨made₁', s₁', run₁', beside, B, O₁, hkept⟩ :=
    (same.update tx).run_others (by simpa using O) run₁ underway
  -- So does its end, which leaves nothing behind.
  obtain ⟨-, reply', tx', shared', hend, rfl⟩ := make_eq_some_iff.1 ends
  obtain ⟨hidle, rfl⟩ := O₁.ends hend quiet
  have idle : (s₀.tx i).Idle :=
    idle_of_run (fun j _ => Transaction.idle_idle .zero) run₀ i ended
  have R : Transaction.Resembles false false (Function.update s₁.tx i tx' i) (s₁'.tx i) := by
    rw [Function.update_self, hkept]
    exact .of_idle hidle idle
  obtain ⟨made₂', t', run₂', echo⟩ := (B.update tx').run R run₂
  refine ⟨made₁', made₂', t', ?_, beside, echo⟩
  exact run_append_eq_some_iff.2 ⟨made₀, s₀, _, run₀,
    run_append_eq_some_iff.2 ⟨made₁', s₁', made₂', run₁', run₂', rfl⟩, rfl⟩

/-- What is called while the first transaction has an attempt under way: it reads a word, the second
one commits another value of that word, and so the first cannot commit. -/
def lostRace : List (Bool × TxRequest) :=
  [(false, .act (.read 0 fullMask)), (false, .act (.write 8 1 fullMask)), (true, .act .begin),
    (true, .act (.write 0 7 fullMask)), (true, .act .commit), (false, .act .commit)]

/-- The failed commit shows in the count of attempts to take the clock, when that is taken after the
rollback. -/
theorem lockAttempts_visible :
    ((init .zero).run ((false, .act .begin) ::
        (lostRace ++ [(false, .act .rollback), (false, .takeLockAttempts)]))).map
          (fun r => r.1.map Made.reply) =
      some [.act .done, .act (.value (.ok 0)), .act .done, .act .done, .act .done,
        .act (.committed (.ok .readWrite)), .act (.committed (.error .commitRace)),
        .act .done, .lockAttempts 1] ∧
    ((init .zero).run ((lostRace.filter fun y => y.1 ≠ false) ++ [(false, .takeLockAttempts)])).map
        (fun r => r.1.map Made.reply) =
      some [.act .done, .act .done, .act (.committed (.ok .readWrite)), .lockAttempts 0] := by
  decide +kernel

/-- Apart from that count the attempt that lost the race is invisible. -/
theorem attempt_invisible_of_lost_race :
    ∃ (first final : Made Bool) (made₁ made₂ : List (Made Bool)) (t : SharedTransactions Bool),
      (init .zero).run ([] ++ (false, .act .begin) ::
          (lostRace ++ (false, .act .rollback) :: [(false, .takeLockAttempts)])) =
        some ([] ++ first :: (made₁ ++ final :: made₂), t) ∧
      made₁.length = lostRace.length ∧
      (∀ x ∈ made₁, x.agent = false → (x.state.tx false).active = true) ∧
      (TxRequest.act .rollback).EndsQuietly final.reply ∧
      ∃ made₁' made₂' t', (init .zero).run ([] ++ ((lostRace.filter fun y => y.1 ≠ false) ++
            [(false, .takeLockAttempts)])) = some ([] ++ (made₁' ++ made₂'), t') ∧
        List.Forall₂ (Made.Beside false) (made₁.filter fun x => x.agent ≠ false) made₁' ∧
        Made.AllEcho false false false made₂ made₂' := by
  have facts : ((init .zero).run ((false, .act .begin) ::
      (lostRace ++ (false, .act .rollback) :: [(false, .takeLockAttempts)]))).map (fun r =>
        ((r.1.drop 1).take lostRace.length).all fun x =>
          decide (x.agent = false → (x.state.tx false).active = true)) = some true := by
    decide +kernel
  obtain ⟨⟨made, t⟩, run, hactive⟩ := Option.map_eq_some_iff.1 facts
  obtain ⟨first, rest, begins, hrest, rfl⟩ := run_cons_eq_some_iff.1 run
  obtain ⟨made₁, s₁, rest, hduring, hlast, rfl⟩ := run_append_eq_some_iff.1 hrest
  obtain ⟨final, made₂, ends, hafter, rfl⟩ := run_cons_eq_some_iff.1 hlast
  have hlength := length_of_run hduring
  have underway : ∀ x ∈ made₁, x.agent = false → (x.state.tx false).active = true := by
    rw [List.drop_one, List.tail_cons, List.take_left' hlength, List.all_eq_true] at hactive
    exact fun x hx => of_decide_eq_true (hactive x hx)
  exact ⟨first, final, made₁, made₂, t, run, hlength, underway, trivial,
    attempt_invisible run rfl hlength underway trivial⟩

end SharedTransactions

end HybridTM
