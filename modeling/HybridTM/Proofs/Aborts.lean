import HybridTM.Proofs.Invisibility
import HybridTM.Proofs.LogBits

/-!
# When attempts fail

Any number of transactions are called in any order. While no commit holds the clock, an optimistic
attempt fails just when memory no longer holds a bit that it took from there: a read fails if it
asks for a bit that is not buffered and the clock has moved, a commit fails if something was written
and the clock has moved. A failure leaves everything as it was, apart from the count of attempts to
take the clock, and a rollback after it leaves the transaction idle
(`SharedTransactions.failsOnChange_of_run`).

What an attempt took and wrote is read off its calls (`SharedTransactions.accesses`), and the logs
of the transaction hold that bit for bit (`Transaction.Journals`).
-/

set_option autoImplicit false

namespace HybridTM

/-! ## What an attempt took and wrote -/

/-- Some write of a run of accesses was to the bit of a word. -/
def Wrote (t : List Access) (a : Addr) (b : Nat) : Prop :=
  ∃ v mask, Access.write a v mask ∈ t ∧ Word.bit mask b = true

/-- Some read of a run of accesses asked for the bit of a word before the run had written to it, and
was given the value. -/
def Took (t : List Access) (a : Addr) (b : Nat) (v : Bool) : Prop :=
  ∃ before mask w after, t = before ++ .read a mask (.ok w) :: after ∧ Word.bit mask b = true ∧
    ¬ Wrote before a b ∧ Word.bit w b = v

section Runs

variable {t : List Access} {a c : Addr} {b : Nat} {v : Bool}

theorem not_wrote_nil : ¬ Wrote [] a b := by
  rintro ⟨v, mask, hmem, -⟩
  cases hmem

theorem not_took_nil : ¬ Took [] a b v := by
  rintro ⟨before, mask, w, after, h, -⟩
  exact absurd h.symm (List.append_ne_nil_of_right_ne_nil before (List.cons_ne_nil _ after))

theorem wrote_concat_write {w : Word} {mask : Mask} :
    Wrote (t ++ [.write c w mask]) a b ↔ Wrote t a b ∨ c = a ∧ Word.bit mask b = true := by
  constructor
  · rintro ⟨w', mask', hmem, hbit⟩
    rcases List.mem_append.1 hmem with hmem | hmem
    · exact Or.inl ⟨w', mask', hmem, hbit⟩
    · cases List.mem_singleton.1 hmem
      exact Or.inr ⟨rfl, hbit⟩
  · rintro (⟨w', mask', hmem, hbit⟩ | ⟨rfl, hbit⟩)
    · exact ⟨w', mask', List.mem_append_left _ hmem, hbit⟩
    · exact ⟨w, mask, List.mem_append_right _ (List.mem_singleton.2 rfl), hbit⟩

theorem wrote_concat_read {mask : Mask} {result : Except TxError Word} :
    Wrote (t ++ [.read c mask result]) a b ↔ Wrote t a b := by
  constructor
  · rintro ⟨w', mask', hmem, hbit⟩
    rcases List.mem_append.1 hmem with hmem | hmem
    · exact ⟨w', mask', hmem, hbit⟩
    · cases List.mem_singleton.1 hmem
  · rintro ⟨w', mask', hmem, hbit⟩
    exact ⟨w', mask', List.mem_append_left _ hmem, hbit⟩

/-- One more access takes what it is given itself. -/
theorem took_concat {x : Access} : Took (t ++ [x]) a b v ↔ Took t a b v ∨
    ∃ mask w, x = .read a mask (.ok w) ∧ Word.bit mask b = true ∧ ¬ Wrote t a b ∧
      Word.bit w b = v := by
  constructor
  · rintro ⟨before, mask, w, after, h, hmask, hwrote, hbit⟩
    -- The read is the last access or one before it.
    rcases List.eq_nil_or_concat after with rfl | ⟨init, last, rfl⟩
    · obtain ⟨rfl, hx⟩ := List.append_inj' h rfl
      exact Or.inr ⟨mask, w, List.cons.inj hx |>.1, hmask, hwrote, hbit⟩
    · rw [List.concat_eq_append, ← List.cons_append, ← List.append_assoc] at h
      obtain ⟨rfl, -⟩ := List.append_inj' h rfl
      exact Or.inl ⟨before, mask, w, init, rfl, hmask, hwrote, hbit⟩
  · rintro (⟨before, mask, w, after, rfl, h⟩ | ⟨mask, w, rfl, h⟩)
    · exact ⟨before, mask, w, after ++ [x], by simp, h⟩
    · exact ⟨t, mask, w, [], rfl, h⟩

theorem took_concat_write {w : Word} {mask : Mask} :
    Took (t ++ [.write c w mask]) a b v ↔ Took t a b v := by
  rw [took_concat, or_iff_left]
  rintro ⟨mask', w', h, -⟩
  cases h

theorem took_concat_failure {mask : Mask} {e : TxError} :
    Took (t ++ [.read c mask (.error e)]) a b v ↔ Took t a b v := by
  rw [took_concat, or_iff_left]
  rintro ⟨mask', w', h, -⟩
  cases h

theorem took_concat_ok {w : Word} {mask : Mask} : Took (t ++ [.read c mask (.ok w)]) a b v ↔
    Took t a b v ∨ c = a ∧ Word.bit mask b = true ∧ ¬ Wrote t a b ∧ Word.bit w b = v := by
  rw [took_concat]
  refine or_congr_right ⟨?_, ?_⟩
  · rintro ⟨mask', w', h, hbits⟩
    cases h
    exact ⟨rfl, hbits⟩
  · rintro ⟨rfl, hbits⟩
    exact ⟨mask, w, rfl, hbits⟩

end Runs

/-! ## Logs hold it bit for bit -/

namespace Transaction

/-- The logs of a transaction hold what a run of accesses took and wrote, bit for bit. -/
structure Journals (t : List Access) (tx : Transaction) : Prop where
  /-- The read log holds the bits that were taken from memory, and no others. -/
  took : ∀ a b v, b < 64 → (tx.reads.Took a b v ↔ HybridTM.Took t a b v)
  /-- The write log covers the bits that were written, and no others. -/
  wrote : ∀ a b, b < 64 → (tx.writes.Covers a b ↔ Wrote t a b)

namespace Journals

variable {t : List Access} {tx tx' : Transaction} {s : Shared} {a : Addr} {mask : Mask}
  {result : Except TxError Word}

theorem of_empty (reads : tx.reads = .empty) (writes : tx.writes = .empty) : Journals [] tx where
  took a b v _ := by
    rw [reads]
    exact iff_of_false ReadLog.not_took_empty not_took_nil
  wrote a b _ := by
    rw [writes]
    exact iff_of_false WriteLog.not_covers_empty not_wrote_nil

/-- The journal depends on the logs only. -/
theorem congr (J : Journals t tx) (reads : tx'.reads = tx.reads) (writes : tx'.writes = tx.writes) :
    Journals t tx' where
  took := reads ▸ J.took
  wrote := writes ▸ J.wrote

theorem write (J : Journals t tx) (a : Addr) (v : Word) (mask : Mask) :
    Journals (t ++ [.write a v mask]) (tx.write a v mask) where
  took c b w hb := by
    rw [took_concat_write]
    exact J.took c b w hb
  wrote c b hb := by
    rw [wrote_concat_write, Transaction.write, WriteLog.covers_insert, J.wrote c b hb]

/-- An optimistic read that takes some bits from memory logs these. -/
theorem fetched (J : Journals t tx) {bits covered : Word} {start : Timestamp}
    (h : tx.writes.lookup a mask = (bits, covered)) (w : Word) :
    Journals (t ++ [.read a mask (.ok (merge (w &&& (mask &&& ~~~covered)) bits covered))])
      { tx with start, reads := tx.reads.record a w (mask &&& ~~~covered) } where
  took c b v hb := by
    rw [took_concat_ok, ReadLog.took_record, J.took c b v hb]
    refine or_congr_right (and_congr_right ?_)
    rintro rfl
    rw [bit_remaining_iff J h hb, and_assoc]
    refine and_congr_right fun hmask => and_congr_right fun hwrote => ?_
    -- A bit that is not covered is the one in memory.
    have huncovered : ¬ Word.bit covered b = true := fun hcov =>
      hwrote ((J.wrote a b hb).1 ((WriteLog.bit_covered h).1 hcov).1)
    rw [Word.bit_merge _ _ _ _ hb, if_neg huncovered, Word.bit_and,
      (bit_remaining_iff J h hb).2 ⟨hmask, hwrote⟩, Bool.and_true]
  wrote c b hb := by
    rw [wrote_concat_read]
    exact J.wrote c b hb
where
  bit_remaining_iff (J : Journals t tx) {bits covered : Word}
      (h : tx.writes.lookup a mask = (bits, covered)) {b : Nat} (hb : b < 64) :
      Word.bit (mask &&& ~~~covered) b = true ↔ Word.bit mask b = true ∧ ¬ Wrote t a b := by
    rw [WriteLog.bit_remaining h hb, J.wrote a b hb]

/-- A read that is answered from the buffer takes nothing. -/
theorem buffered (J : Journals t tx) {bits : Word} (h : tx.writes.lookup a mask = (bits, mask))
    (result : Except TxError Word) : Journals (t ++ [.read a mask result]) tx where
  took c b v hb := by
    rw [J.took c b v hb, took_concat, or_iff_left]
    rintro ⟨mask', w, hread, hmask, hwrote, -⟩
    cases hread
    exact hwrote ((J.wrote a b hb).1 ((WriteLog.lookup_covered_eq_iff h).1 rfl b hb hmask))
  wrote c b hb := by
    rw [wrote_concat_read]
    exact J.wrote c b hb

theorem failed (J : Journals t tx) (a : Addr) (mask : Mask) (e : TxError) :
    Journals (t ++ [.read a mask (.error e)]) tx where
  took c b v hb := by
    rw [took_concat_failure]
    exact J.took c b v hb
  wrote c b hb := by
    rw [wrote_concat_read]
    exact J.wrote c b hb

theorem read (J : Journals t tx) (O : tx.Optimistic) (h : tx.read s a mask = some (result, tx')) :
    Journals (t ++ [.read a mask result]) tx' := by
  obtain ⟨bits, covered, hlookup, h | h | h | h⟩ := read_cases h
  · obtain ⟨rfl, -, rfl⟩ := h
    exact J.buffered hlookup result
  · exact absurd h.1 (by rw [O.role]; exact Bool.false_ne_true)
  · obtain ⟨-, start, -, rfl, rfl⟩ := h
    exact J.fetched hlookup _
  · obtain ⟨-, e, -, rfl, rfl⟩ := h
    exact J.failed a mask e

end Journals

end Transaction

/-! ## The accesses of an attempt -/

section Accesses

variable {ι : Type} [DecidableEq ι]

/-- The accesses that a transaction made since it last began, when it has made the given ones and
one more call is made. -/
def Made.track (i : ι) (t : List Access) (x : Made ι) : List Access :=
  if x.agent = i then
    match x.call, x.reply with
    | .act .begin, _ | .act .beginSerial, _ | .act .beginExclusive, _ => []
    | .act (.read a mask), .act (.value result) => t ++ [.read a mask result]
    | .act (.write a v mask), _ => t ++ [.write a v mask]
    | _, _ => t
  else t

/-- The accesses that a transaction made since it last began. -/
def SharedTransactions.accesses (i : ι) (made : List (Made ι)) : List Access :=
  made.foldl (Made.track i) []

end Accesses

namespace SharedTransactions

variable {ι : Type} [DecidableEq ι] {i j : ι} {c : TxRequest} {s s' : SharedTransactions ι}
  {x : Made ι} {calls : List (ι × TxRequest)} {made : List (Made ι)} {t : List Access}

/-- While an optimistic attempt is under way, the logs hold its accesses. -/
def Journaled (s : SharedTransactions ι) (i : ι) (t : List Access) : Prop :=
  (s.tx i).Optimistic → (s.tx i).Journals t

/-- The transaction's own action is entered in its journal. -/
theorem journaled_of_perform {tx tx' : Transaction} {shared shared' : Shared} {x : TxAction}
    {answer : TxAnswer} (J : tx.Optimistic → tx.Journals t)
    (h : tx.perform shared x = some (answer, tx', shared')) (s' : SharedTransactions ι)
    (O : tx'.Optimistic) (allowed : x.Allowed tx) :
    tx'.Journals (Made.track i t ⟨i, .act x, .act answer, s'⟩) := by
  rw [Made.track, if_pos rfl]
  cases x with
  | begin =>
    cases h
    exact .of_empty rfl rfl
  | beginExclusive =>
    cases h
    exact .of_empty rfl rfl
  | beginSerial =>
    obtain ⟨⟨tx₁, clock⟩, hbegin, heq⟩ := Option.map_eq_some_iff.1 h
    obtain ⟨-, rfl, -⟩ : _ ∧ _ ∧ _ := by simpa using heq
    obtain ⟨now, -, -, rfl⟩ := Transaction.beginSerial_eq_some hbegin
    exact .of_empty rfl rfl
  | read a mask =>
    obtain ⟨⟨result, tx₁⟩, hread, heq⟩ := Option.map_eq_some_iff.1 h
    obtain ⟨rfl, rfl, -⟩ : _ ∧ _ ∧ _ := by simpa using heq
    have O₀ : tx.Optimistic := ⟨allowed, (Transaction.kept_read hread).1 ▸ O.role⟩
    exact (J O₀).read O₀ hread
  | write a v mask =>
    cases h
    have O₀ : tx.Optimistic := by
      refine ⟨allowed, ?_⟩
      rcases tx.role_write a v mask with ⟨-, hrole⟩ | ⟨hrole, -⟩
      · rw [hrole]
        rfl
      · rw [← hrole]
        exact O.role
    exact (J O₀).write a v mask
  | commit =>
    obtain ⟨⟨result, tx₁, s₁⟩, hcommit, heq⟩ := Option.map_eq_some_iff.1 h
    obtain ⟨-, rfl, -⟩ : _ ∧ _ ∧ _ := by simpa using heq
    have idle (tx₂ : Transaction) (h : tx₂.finish.Optimistic) : False := by
      cases h.active
    -- Only a commit that failed leaves the attempt under way.
    rcases Transaction.commit_cases hcommit with ⟨-, -, rfl, -⟩ |
      ⟨-, now, locked, -, -, -, -, n, rfl⟩ | ⟨-, -, -, -, n, rfl⟩ | ⟨-, -, -, rfl⟩ | ⟨-, -, -, rfl⟩
    · exact (idle _ O).elim
    · exact (idle _ O).elim
    · exact (J ⟨O.active, O.role⟩).congr rfl rfl
    · exact (idle _ O).elim
    · exact (idle _ O).elim
  | rollback =>
    obtain ⟨-, rfl, -⟩ : _ ∧ _ ∧ _ := by simpa [Transaction.perform] using h
    unfold Transaction.rollback at O ⊢
    split at O
    · cases O.active
    · next hidle => exact absurd O.active hidle
  | drop =>
    obtain ⟨-, rfl, -⟩ : _ ∧ _ ∧ _ := by simpa [Transaction.perform] using h
    cases O.active

/-- A call is entered in the journal of the transaction that is called, and in no other. -/
theorem journaled_of_make (J : s.Journaled i t) (h : s.make j c = some x) :
    x.state.Journaled i (Made.track i t x) := by
  obtain ⟨allowed, reply, tx, shared, hrespond, rfl⟩ := make_eq_some_iff.1 h
  intro O
  by_cases hj : j = i
  · subst hj
    simp only [Function.update_self] at O ⊢
    cases c with
    | act x =>
      obtain ⟨⟨answer, tx₁, s₁⟩, hperform, heq⟩ := Option.map_eq_some_iff.1 hrespond
      obtain ⟨rfl, rfl, rfl⟩ : _ ∧ _ ∧ _ := by simpa using heq
      exact journaled_of_perform J hperform _ O allowed
    | validate =>
      obtain ⟨result, -, heq⟩ := Option.map_eq_some_iff.1 hrespond
      obtain ⟨-, rfl, -⟩ : _ ∧ _ ∧ _ := by simpa using heq
      simpa [Made.track] using J O
    | startTime =>
      cases hrespond
      simpa [Made.track] using J O
    | look =>
      cases hrespond
      simpa [Made.track] using J O
    | takeLockAttempts =>
      cases hrespond
      rw [Made.track, if_pos rfl]
      exact (J ⟨O.active, O.role⟩).congr rfl rfl
  · simp only [Function.update_of_ne (Ne.symm hj)] at O ⊢
    simpa [Made.track, hj] using J O

theorem journaled_of_run (J : s.Journaled i t) (h : s.run calls = some (made, s')) :
    s'.Journaled i (made.foldl (Made.track i) t) := by
  induction calls generalizing s t made with
  | nil =>
    cases h
    exact J
  | cons y calls ih =>
    obtain ⟨j, c⟩ := y
    obtain ⟨x, rest, hmake, hrun, rfl⟩ := run_cons_eq_some_iff.1 h
    rw [List.foldl_cons]
    exact ih (journaled_of_make J hmake) hrun

theorem journaled_of_init {m : Memory} (h : (init m).run calls = some (made, s)) (i : ι) :
    s.Journaled i (accesses i made) :=
  journaled_of_run (s := init m) (fun O => by cases O.active) h

/-! ## Failures -/

end SharedTransactions

namespace Transaction

variable {tx tx' : Transaction} {s s' : Shared}

/-- While no commit holds the clock, a validation compares the read log with memory. -/
theorem validate_of_free (free : s.clock.isLocked = false) :
    tx.validate s = some (if tx.reads.isConsistent s.memory then .ok s.clock.now
      else .error .validationFailure) := by
  rw [validate, Clock.unlocked?_eq_some_iff.2 ⟨free, rfl⟩]
  cases tx.reads.isConsistent s.memory <;> rfl

/-- Memory differs from what the transaction took from it, and the clock has moved. -/
def Stale (tx : Transaction) (s : Shared) : Prop :=
  s.clock.now ≠ tx.start ∧ tx.reads.Differs s.memory

/-- The clock value that the next read agrees with is found while no commit holds the clock, unless
the transaction is stale. -/
theorem currentStart_of_free (tx : Transaction) (free : s.clock.isLocked = false) :
    tx.currentStart s = some (.error .validationFailure) ∧ tx.Stale s ∨
      (∃ start, tx.currentStart s = some (.ok start)) ∧ ¬ tx.Stale s := by
  unfold currentStart Stale
  by_cases hnow : s.clock.now = tx.start
  · rw [if_pos hnow]
    exact Or.inr ⟨⟨_, rfl⟩, fun h => h.1 hnow⟩
  · rw [if_neg hnow, validate_of_free free, ← ReadLog.isConsistent_eq_false_iff]
    cases tx.reads.isConsistent s.memory with
    | false => exact Or.inl ⟨rfl, hnow, rfl⟩
    | true => exact Or.inr ⟨⟨_, rfl⟩, fun h => Bool.noConfusion h.2⟩

/-- An optimistic read that finds the clock free fails just when it asks for a bit that is not
buffered and the transaction is stale, and then it changes nothing. -/
theorem Optimistic.read_of_free (O : tx.Optimistic) (free : s.clock.isLocked = false) (a : Addr)
    (mask : Mask) : ∃ result tx', tx.read s a mask = some (result, tx') ∧
      (result = .error .validationFailure ↔
        (∃ b, b < 64 ∧ Word.bit mask b = true ∧ ¬ tx.writes.Covers a b) ∧ tx.Stale s) ∧
      ∀ err, result = .error err → err = .validationFailure ∧ tx' = tx := by
  rcases hlookup : tx.writes.lookup a mask with ⟨bits, covered⟩
  have hmissed : covered ≠ mask ↔
      ∃ b, b < 64 ∧ Word.bit mask b = true ∧ ¬ tx.writes.Covers a b := by
    rw [Ne, WriteLog.lookup_covered_eq_iff hlookup]
    simp only [not_forall, exists_prop]
  rw [← hmissed]
  by_cases hcov : covered = mask
  · refine ⟨.ok (bits &&& mask), tx, ?_, ?_, fun _ h => by cases h⟩
    · simp [read, hlookup, hcov]
    · exact iff_of_false (fun h => by cases h) fun h => h.1 hcov
  · rcases tx.currentStart_of_free free with ⟨hstart, hstale⟩ | ⟨⟨start, hstart⟩, hfresh⟩
    · refine ⟨.error .validationFailure, tx, ?_, ?_, ?_⟩
      · simp [read, hlookup, hcov, O.role, hstart]
      · exact iff_of_true rfl ⟨hcov, hstale⟩
      · intro err h
        cases h
        exact ⟨rfl, rfl⟩
    · refine ⟨.ok (merge (s.memory.read a &&& (mask &&& ~~~covered)) bits covered),
        { tx with start, reads := tx.reads.record a (s.memory.read a) (mask &&& ~~~covered) }, ?_,
        ?_, fun _ h => by cases h⟩
      · simp [read, hlookup, hcov, O.role, hstart]
      · exact iff_of_false (fun h => by cases h) fun h => hfresh h.2

/-- An optimistic commit that finds the clock free fails just when something was written and the
transaction is stale, and then it counts one attempt to take the clock and changes nothing else. -/
theorem Optimistic.commit_of_free (O : tx.Optimistic) (free : s.clock.isLocked = false) :
    ∃ result tx' s', tx.commit s = some (result, tx', s') ∧
      (result = .error .commitRace ↔ tx.role = .readWrite ∧ tx.Stale s) ∧
      (tx.role = .readOnly → result = .ok .readOnly) ∧
      ∀ err, result = .error err →
        err = .commitRace ∧ tx' = { tx with lockAttempts := tx.lockAttempts + 1 } ∧ s' = s := by
  cases hrole : tx.role with
  | readOnly =>
    refine ⟨.ok .readOnly, tx.finish, s, by simp [commit, hrole], ?_, fun _ => rfl,
      fun _ h => by cases h⟩
    exact iff_of_false (fun h => by cases h) fun h => by cases h.1
  | serial => exact absurd O.role (by rw [hrole]; exact Bool.true_eq_false.mp)
  | exclusive => exact absurd O.role (by rw [hrole]; exact Bool.true_eq_false.mp)
  | readWrite =>
    by_cases hnow : s.clock.now = tx.start
    · -- The clock is where the attempt started.
      have hcommit : ∃ tx' s', tx.commit s = some (.ok .readWrite, tx', s') := by
        simp only [commit, hrole, Clock.lock?_eq_some_iff.2 ⟨hnow, rfl⟩]
        exact ⟨_, _, rfl⟩
      obtain ⟨tx', s', hcommit⟩ := hcommit
      exact ⟨_, tx', s', hcommit, iff_of_false (fun h => by cases h) fun h => h.2.1 hnow,
        (fun h => by cases h), fun _ h => by cases h⟩
    · have hlock : s.clock.lock? tx.start = none := if_neg hnow
      cases hcons : tx.reads.isConsistent s.memory with
      | true =>
        have hlock' : s.clock.lock? s.clock.now = some ⟨s.clock.now + 1⟩ := if_pos rfl
        have hcommit : ∃ tx' s', tx.commit s = some (.ok .readWrite, tx', s') := by
          simp only [commit, hrole, hlock, validate_of_free free, hcons, if_true, hlock']
          exact ⟨_, _, rfl⟩
        obtain ⟨tx', s', hcommit⟩ := hcommit
        have fresh := ReadLog.isConsistent_iff_not_differs.1 hcons
        exact ⟨_, tx', s', hcommit, iff_of_false (fun h => by cases h) fun h => fresh h.2.2,
          (fun h => by cases h), fun _ h => by cases h⟩
      | false =>
        refine ⟨.error .commitRace, { tx with lockAttempts := tx.lockAttempts + 1 }, s, ?_, ?_,
          (fun h => by cases h), ?_⟩
        · simp only [commit, hrole, hlock, validate_of_free free, hcons, Bool.false_eq_true,
            if_false]
        · exact iff_of_true rfl ⟨rfl, hnow, ReadLog.isConsistent_eq_false_iff.1 hcons⟩
        · intro err h
          cases h
          exact ⟨rfl, by rw [hrole], rfl⟩

end Transaction

namespace SharedTransactions

variable {ι : Type} [DecidableEq ι] {i j : ι} {c : TxRequest} {s s' : SharedTransactions ι}
  {x : Made ι} {calls : List (ι × TxRequest)} {made : List (Made ι)} {t : List Access}

/-- A rollback of one transaction leaves it idle, and memory, the clock and all other transactions
as they are. Another rollback after it changes nothing. -/
def RollsBack (s : SharedTransactions ι) (i : ι) : Prop :=
  ∃ x, s.make i (.act .rollback) = some x ∧ (x.state.tx i).Idle ∧ x.state.shared = s.shared ∧
    (∀ j, j ≠ i → x.state.tx j = s.tx j) ∧
    ∃ y, x.state.make i (.act .rollback) = some y ∧ y.state = x.state

/-- An action that is possible is a call that can be made. -/
theorem make_act {x : TxAction} {answer : TxAnswer} {tx : Transaction} {shared : Shared}
    (allowed : x.Allowed (s.tx i)) (h : (s.tx i).perform s.shared x = some (answer, tx, shared)) :
    s.make i (.act x) = some ⟨i, .act x, .act answer, shared, Function.update s.tx i tx⟩ := by
  refine make_eq_some_iff.2 ⟨allowed, .act answer, tx, shared, ?_, rfl⟩
  rw [Transaction.respond, h]
  rfl

@[simp]
theorem tx_update_self (shared : Shared) (f : ι → Transaction) (i : ι) (tx : Transaction) :
    SharedTransactions.tx ⟨shared, Function.update f i tx⟩ i = tx := Function.update_self ..

theorem rollsBack_of_optimistic (O : (s.tx i).Optimistic) : s.RollsBack i := by
  have hrollback : (s.tx i).perform s.shared .rollback =
      some (.done, (s.tx i).finish, s.shared) := by
    rw [Transaction.perform, O.rollback]
  -- What is idle already stays as it is.
  have hagain : (s.tx i).finish.perform s.shared .rollback =
      some (.done, (s.tx i).finish, s.shared) := rfl
  refine ⟨_, make_act trivial hrollback, ?_, rfl, fun j hj => Function.update_of_ne hj _ _, _,
    make_act trivial (by rw [tx_update_self]; exact hagain), ?_⟩
  · rw [tx_update_self]
    exact Transaction.idle_finish _
  · rw [Function.update_idem]

/-- How the calls of an optimistic attempt with the given accesses fail. -/
structure FailsOnChange (s : SharedTransactions ι) (i : ι) (t : List Access) : Prop where
  /-- Its logs hold what it took and wrote, bit for bit. -/
  journals : (s.tx i).Journals t
  /-- A read fails just when it asks for a bit that is not buffered, the clock has moved since the
  start, and an entry of the read log differs from memory in a bit of its mask. Then it changes
  nothing, and the attempt can be rolled back. -/
  read : ∀ a mask, ∃ x result, s.make i (.act (.read a mask)) = some x ∧
    x.reply = .act (.value result) ∧
    (result = .error .validationFailure ↔
      (∃ b, b < 64 ∧ Word.bit mask b = true ∧ ¬ (s.tx i).writes.Covers a b) ∧
        s.shared.clock.now ≠ (s.tx i).start ∧ (s.tx i).reads.Differs s.shared.memory) ∧
    ∀ err, result = .error err → err = .validationFailure ∧ x.state = s ∧ x.state.RollsBack i
  /-- A commit fails just when something was written, the clock has moved since the start, and an
  entry of the read log differs from memory in a bit of its mask. Then it counts an attempt to take
  the clock and changes nothing else, and the attempt can be rolled back. -/
  commit : ∃ x result, s.make i (.act .commit) = some x ∧ x.reply = .act (.committed result) ∧
    (result = .error .commitRace ↔ (s.tx i).role = .readWrite ∧
      s.shared.clock.now ≠ (s.tx i).start ∧ (s.tx i).reads.Differs s.shared.memory) ∧
    ((s.tx i).role = .readOnly → result = .ok .readOnly) ∧
    ∀ err, result = .error err → err = .commitRace ∧
      x.state = ⟨s.shared, Function.update s.tx i
        { s.tx i with lockAttempts := (s.tx i).lockAttempts + 1 }⟩ ∧ x.state.RollsBack i

/-- In every state that a run leads to, while no commit holds the clock, the calls of an optimistic
attempt fail just when a bit that it took has changed, and a failure changes nothing. -/
theorem failsOnChange_of_run {m : Memory} (run : (init m).run calls = some (made, s))
    (free : s.shared.clock.isLocked = false) (O : (s.tx i).Optimistic) :
    s.FailsOnChange i (accesses i made) where
  journals := journaled_of_init run i O
  read a mask := by
    obtain ⟨result, tx', hread, hfails, hfailed⟩ := O.read_of_free free a mask
    have hperform : (s.tx i).perform s.shared (.read a mask) =
        some (.value result, tx', s.shared) := by
      rw [Transaction.perform, hread]
      rfl
    refine ⟨_, result, make_act O.active hperform, rfl, hfails, fun err herr => ?_⟩
    obtain ⟨rfl, rfl⟩ := hfailed err herr
    rw [Function.update_eq_self]
    exact ⟨rfl, rfl, rollsBack_of_optimistic O⟩
  commit := by
    obtain ⟨result, tx', shared', hcommit, hfails, hquiet, hfailed⟩ := O.commit_of_free free
    have hperform : (s.tx i).perform s.shared .commit =
        some (.committed result, tx', shared') := by
      rw [Transaction.perform, hcommit]
      rfl
    refine ⟨_, result, make_act O.active hperform, rfl, hfails, hquiet, fun err herr => ?_⟩
    obtain ⟨rfl, rfl, hshared⟩ := hfailed err herr
    rw [hshared]
    refine ⟨rfl, rfl, rollsBack_of_optimistic ?_⟩
    rw [tx_update_self]
    exact ⟨O.active, O.role⟩

/-- The first transaction reads the lowest byte of a word and writes another word. Meanwhile the
second one changes the next byte of the word, and after that the byte that was read. -/
def overtaken : List (Bool × TxRequest) :=
  [(false, .act .begin), (false, .act (.read 0 0xff)), (false, .act (.write 8 1 fullMask)),
    (true, .act .begin), (true, .act (.write 0 0x100 0xff00)), (true, .act .commit),
    (false, .act (.read 0 0xff)),
    (true, .act .begin), (true, .act (.write 0 7 0xff)), (true, .act .commit)]

/-- The change of the next byte did no harm, but now the first transaction fails to commit, and it
can read only what it wrote. -/
theorem failsOnChange_of_overtaken : ∃ (made : List (Made Bool)) (s : SharedTransactions Bool),
    (init .zero).run overtaken = some (made, s) ∧ s.shared.clock.isLocked = false ∧
      (s.tx false).Optimistic ∧ (s.tx false).role = .readWrite ∧ (s.tx false).Stale s.shared ∧
      (s.tx false).start = 2 ∧ s.FailsOnChange false (accesses false made) := by
  have facts : ((init .zero).run overtaken).map (fun r => decide
      (r.2.shared.clock.isLocked = false ∧ (r.2.tx false).active = true ∧
        (r.2.tx false).role = .readWrite ∧ (r.2.tx false).start = 2 ∧ r.2.shared.clock.now = 4 ∧
        (r.2.tx false).reads.isConsistent r.2.shared.memory = false)) = some true := by
    decide +kernel
  obtain ⟨⟨made, s⟩, run, h⟩ := Option.map_eq_some_iff.1 facts
  obtain ⟨free, active, role, start, now, stale⟩ := of_decide_eq_true h
  have O : (s.tx false).Optimistic := ⟨active, by rw [role]; rfl⟩
  refine ⟨made, s, run, free, O, role, ⟨?_, ReadLog.isConsistent_eq_false_iff.1 stale⟩, start,
    failsOnChange_of_run run free O⟩
  rw [now, start]
  decide

end SharedTransactions

end HybridTM
