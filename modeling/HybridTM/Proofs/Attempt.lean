import HybridTM.Proofs.Logs
import HybridTM.Proofs.Stamp
import HybridTM.Transaction

/-!
# Attempts against a history of memories

A history numbers the memories that commits published. An attempt stands at one of them: the one
whose stamp is its start, with which everything it has read agrees (`Attempt`). Every call of the
transaction keeps this, moving the attempt to a later memory at most (`Attempt.read`,
`Attempt.write`), and a commit that publishes finds the attempt standing at the last memory
(`Attempt.commit`). What other transactions publish leaves it where it stands
(`Attempt.publish`).
-/

set_option autoImplicit false

namespace HybridTM

/-! ## Histories -/

/-- The memories that were published one after the other, the first of them at number zero. -/
structure History where
  /-- The number of publications so far. -/
  count : Nat
  /-- The memory after so many publications. -/
  memory : Nat → Memory

namespace History

/-- A history before any publication. -/
def start (m : Memory) : History := ⟨0, fun _ => m⟩

/-- The memory after the last publication. -/
def last (h : History) : Memory := h.memory h.count

/-- The history after one more publication. -/
def publish (h : History) (m : Memory) : History :=
  ⟨h.count + 1, fun k => if k ≤ h.count then h.memory k else m⟩

/-- The history with another last memory. -/
def amend (h : History) (m : Memory) : History :=
  ⟨h.count, fun k => if k < h.count then h.memory k else m⟩

variable {h : History}

@[simp]
theorem count_publish (m : Memory) : (h.publish m).count = h.count + 1 := rfl

theorem memory_publish_of_le {k : Nat} (hk : k ≤ h.count) (m : Memory) :
    (h.publish m).memory k = h.memory k := if_pos hk

@[simp]
theorem last_publish (m : Memory) : (h.publish m).last = m :=
  if_neg (Nat.not_succ_le_self h.count)

@[simp]
theorem count_amend (m : Memory) : (h.amend m).count = h.count := rfl

theorem memory_amend_of_lt {k : Nat} (hk : k < h.count) (m : Memory) :
    (h.amend m).memory k = h.memory k := if_pos hk

@[simp]
theorem last_amend (m : Memory) : (h.amend m).last = m :=
  if_neg (Nat.lt_irrefl h.count)

end History

/-- The shared state shows the end of a history: the clock stands at its count, held or free, and
memory holds its last memory in all words of a set. -/
structure Shared.Shows (s : Shared) (P : Addr → Prop) (h : History) (held : Bool) : Prop where
  /-- The clock stands at the count. -/
  clock : s.clock = .of h.count held
  /-- Memory is the last one published. -/
  memory : Memory.SameOn P s.memory h.last
  /-- The count fits on the clock. -/
  room : h.count < clockLimit

/-- An attempt that made the given accesses stands at number `k` of a history, which was current
at some moment since number `since`. -/
structure Attempt (P : Addr → Prop) (h : History) (c : Clock) (since k : Nat) (t : List Access)
    (tx : Transaction) : Prop where
  /-- The attempt does not stand before its beginning. -/
  since_le : since ≤ k
  /-- It stands at a memory that was published. -/
  le_count : k ≤ h.count
  /-- It accessed words of the set only. -/
  within : Within P t
  /-- Its reads agree with that memory. -/
  agrees : Agrees t (h.memory k)
  /-- Its writes are buffered. -/
  holds : tx.writes.Holds t
  /-- An optimistic attempt knows where it stands, and its logs account for its accesses. -/
  optimistic : tx.role.isIrrevocable = false →
    tx.start = stamp k ∧ Records t tx.reads tx.writes
  /-- A serial attempt holds the clock and stands at the end. -/
  serial : tx.role = .serial → k = h.count ∧ tx.start = stamp k ∧ c = .of k true
  /-- An exclusive attempt stands at the end. -/
  exclusive : tx.role = .exclusive → k = h.count
  /-- A read-only attempt wrote nothing. -/
  readOnly : tx.role = .readOnly → ReadsOnly t

/-! ## What one call does -/

namespace Transaction

variable {tx tx' : Transaction} {s s' : Shared}

theorem validate_eq_some_ok_iff {now : Timestamp} :
    tx.validate s = some (.ok now) ↔
      s.clock.unlocked? = some now ∧ tx.reads.isConsistent s.memory = true := by
  unfold validate
  cases s.clock.unlocked? with
  | none => simp
  | some t => cases tx.reads.isConsistent s.memory <;> simp

/-- A read is answered from the buffer, or straight from memory, or from memory with a log entry,
or it fails and changes nothing. -/
theorem read_cases {a : Addr} {mask : Mask} {result : Except TxError Word}
    (hr : tx.read s a mask = some (result, tx')) :
    ∃ bits covered, tx.writes.lookup a mask = (bits, covered) ∧
      ((covered = mask ∧ result = .ok (bits &&& mask) ∧ tx' = tx) ∨
        (tx.role.isIrrevocable = true ∧ tx' = tx ∧
          result = .ok (merge (s.memory.read a &&& (mask &&& ~~~covered)) bits covered)) ∨
        (tx.role.isIrrevocable = false ∧ ∃ start, tx.currentStart s = some (.ok start) ∧
          result = .ok (merge (s.memory.read a &&& (mask &&& ~~~covered)) bits covered) ∧
          tx' = { tx with
            start
            reads := tx.reads.record a (s.memory.read a) (mask &&& ~~~covered) }) ∨
        (tx.role.isIrrevocable = false ∧ ∃ e, tx.currentStart s = some (.error e) ∧
          result = .error e ∧ tx' = tx)) := by
  unfold read at hr
  rcases hl : tx.writes.lookup a mask with ⟨bits, covered⟩
  refine ⟨bits, covered, rfl, ?_⟩
  rw [hl] at hr
  simp only at hr
  split at hr
  · next hcov =>
    obtain ⟨rfl, rfl⟩ := Prod.mk.inj (Option.some.inj hr)
    exact Or.inl ⟨hcov, rfl, rfl⟩
  split at hr
  · next hirr =>
    obtain ⟨rfl, rfl⟩ := Prod.mk.inj (Option.some.inj hr)
    exact Or.inr (Or.inl ⟨hirr, rfl, rfl⟩)
  · next hirr =>
    rw [Bool.not_eq_true] at hirr
    split at hr
    · cases hr
    · next e hstart =>
      obtain ⟨rfl, rfl⟩ := Prod.mk.inj (Option.some.inj hr)
      exact Or.inr (Or.inr (Or.inr ⟨hirr, e, hstart, rfl, rfl⟩))
    · next start hstart =>
      obtain ⟨rfl, rfl⟩ := Prod.mk.inj (Option.some.inj hr)
      exact Or.inr (Or.inr (Or.inl ⟨hirr, start, hstart, rfl, rfl⟩))

/-- A read changes neither the role of an attempt nor whether it is active, nor its buffer. -/
theorem kept_read {a : Addr} {mask : Mask} {result : Except TxError Word}
    (hr : tx.read s a mask = some (result, tx')) :
    tx'.role = tx.role ∧ tx'.active = tx.active ∧ tx'.writes = tx.writes := by
  obtain ⟨bits, covered, -, h | h | h | h⟩ := read_cases hr
  · obtain ⟨-, -, rfl⟩ := h
    exact ⟨rfl, rfl, rfl⟩
  · obtain ⟨-, rfl, -⟩ := h
    exact ⟨rfl, rfl, rfl⟩
  · obtain ⟨-, start, -, -, rfl⟩ := h
    exact ⟨rfl, rfl, rfl⟩
  · obtain ⟨-, e, -, -, rfl⟩ := h
    exact ⟨rfl, rfl, rfl⟩

/-- A write makes a read-only attempt a writer and keeps every other role. -/
theorem role_write (tx : Transaction) (a : Addr) (v : Word) (mask : Mask) :
    (tx.write a v mask).role = .readWrite ∧ tx.role = .readOnly ∨
      (tx.write a v mask).role = tx.role ∧ tx.role ≠ .readOnly := by
  by_cases hrole : tx.role = .readOnly
  · exact Or.inl ⟨if_pos hrole, hrole⟩
  · exact Or.inr ⟨if_neg hrole, hrole⟩

/-- It makes no attempt serial and leaves none. -/
theorem serial_write_iff (tx : Transaction) (a : Addr) (v : Word) (mask : Mask) :
    (tx.write a v mask).role = .serial ↔ tx.role = .serial := by
  rcases tx.role_write a v mask with ⟨hwrite, hrole⟩ | ⟨hwrite, -⟩
  · simp [hwrite, hrole]
  · rw [hwrite]

/-- A commit ends without writes; or it publishes the buffer at a clock value that the attempt
has started at or validated at; or it fails and changes neither memory nor the clock nor what the
attempt did. -/
theorem commit_cases {result : Except TxError CommitKind}
    (hc : tx.commit s = some (result, tx', s')) :
    (tx.role = .readOnly ∧ result = .ok .readOnly ∧ tx' = tx.finish ∧ s' = s) ∨
      (tx.role = .readWrite ∧ ∃ now locked, s.clock.lock? now = some locked ∧
        (now = tx.start ∨ tx.validate s = some (.ok now)) ∧ result = .ok .readWrite ∧
        s' = ⟨tx.writes.writeBack s.memory, locked.unlock now⟩ ∧
        ∃ n, tx' = ({ tx with start := now + 2, lockAttempts := n } : Transaction).finish) ∨
      (tx.role = .readWrite ∧ (∃ e, tx.validate s = some (.error e)) ∧
        result = .error .commitRace ∧ s' = s ∧ ∃ n, tx' = { tx with lockAttempts := n }) ∨
      (tx.role = .serial ∧ result = .ok .serial ∧
        s' = ⟨tx.writes.writeBack s.memory, s.clock.unlock tx.start⟩ ∧
        tx' = ({ tx with start := tx.start + 2 } : Transaction).finish) ∨
      (tx.role = .exclusive ∧ result = .ok .exclusive ∧
        s' = ⟨tx.writes.writeBack s.memory, s.clock⟩ ∧ tx' = tx.finish) := by
  unfold commit at hc
  split at hc
  · next hrole =>
    obtain ⟨rfl, rfl, rfl⟩ : _ ∧ _ ∧ _ := by simpa using hc
    exact Or.inl ⟨hrole, rfl, rfl, rfl⟩
  · next hrole =>
    refine Or.inr ?_
    simp only at hc
    split at hc
    · next locked hlock =>
      obtain ⟨rfl, rfl, rfl⟩ : _ ∧ _ ∧ _ := by simpa using hc
      exact Or.inl ⟨hrole, tx.start, locked, hlock, Or.inl rfl, rfl, rfl, _, rfl⟩
    · split at hc
      · cases hc
      · next e hval =>
        obtain ⟨rfl, rfl, rfl⟩ : _ ∧ _ ∧ _ := by simpa using hc
        exact Or.inr (Or.inl ⟨hrole, ⟨e, hval⟩, rfl, rfl, _, rfl⟩)
      · next now hval =>
        split at hc
        · next locked hlock =>
          obtain ⟨rfl, rfl, rfl⟩ : _ ∧ _ ∧ _ := by simpa using hc
          exact Or.inl ⟨hrole, now, locked, hlock, Or.inr hval, rfl, rfl, _, rfl⟩
        · cases hc
  · next hrole =>
    obtain ⟨rfl, rfl, rfl⟩ : _ ∧ _ ∧ _ := by simpa using hc
    exact Or.inr (Or.inr (Or.inr (Or.inl ⟨hrole, rfl, rfl, rfl⟩)))
  · next hrole =>
    obtain ⟨rfl, rfl, rfl⟩ : _ ∧ _ ∧ _ := by simpa using hc
    exact Or.inr (Or.inr (Or.inr (Or.inr ⟨hrole, rfl, rfl, rfl⟩)))

/-- A commit fails because of a race. It counts its attempts to take the clock and does nothing
else. -/
theorem commit_failed {err : TxError} (hc : tx.commit s = some (.error err, tx', s')) :
    err = .commitRace ∧ tx.role = .readWrite ∧ s' = s ∧
      ∃ n, tx' = { tx with lockAttempts := n } := by
  rcases commit_cases hc with ⟨-, herror, -⟩ | ⟨-, now, locked, -, -, herror, -⟩ |
    ⟨hrole, -, herror, hs, htx⟩ | ⟨-, herror, -⟩ | ⟨-, herror, -⟩
  · cases herror
  · cases herror
  · exact ⟨Except.error.inj herror, hrole, hs, htx⟩
  · cases herror
  · cases herror

end Transaction

/-! ## Attempts through their calls -/

namespace Attempt

variable {P : Addr → Prop} {h : History} {held : Bool} {c : Clock} {since k : Nat}
  {t : List Access} {tx tx' : Transaction} {s s' : Shared}

/-- A transaction with empty logs has made no access and stands where its start says. -/
theorem of_empty (hs : since ≤ k) (hk : k ≤ h.count) (hrole : tx.role = .readOnly)
    (hstart : tx.start = stamp k) (hreads : tx.reads = .empty) (hwrites : tx.writes = .empty) :
    Attempt P h c since k [] tx where
  since_le := hs
  le_count := hk
  within := fun _ hx => absurd hx List.not_mem_nil
  agrees := trivial
  holds := hwrites ▸ WriteLog.holds_empty
  optimistic _ := ⟨hstart, by rw [hreads, hwrites]; exact .empty⟩
  serial hr := by rw [hrole] at hr; cases hr
  exclusive hr := by rw [hrole] at hr; cases hr
  readOnly _ := fun _ _ _ hmem => absurd hmem List.not_mem_nil

/-- An optimistic attempt begins at the last memory, also while another holds the clock. -/
theorem begin (S : s.Shows P h held) (tx : Transaction) :
    Attempt P h s.clock h.count h.count [] (tx.begin s.clock) := by
  have hstart : (tx.begin s.clock).start = stamp h.count := by
    rw [S.clock]
    exact Clock.snapshot_of h.count held
  exact of_empty (Nat.le_refl _) (Nat.le_refl _) rfl hstart rfl rfl

/-- A serial attempt begins once the clock is free, and takes it. -/
theorem beginSerial (S : s.Shows P h held) (hb : tx.beginSerial s.clock = some (tx', c)) :
    held = false ∧ c = .of h.count true ∧ tx'.role = .serial ∧ tx'.active = true ∧
      Attempt P h c h.count h.count [] tx' := by
  rw [S.clock] at hb
  obtain ⟨now, hnow, locked, hlock, heq⟩ :
      ∃ now, (Clock.of h.count held).unlocked? = some now ∧ ∃ locked,
        (Clock.of h.count held).lock? now = some locked ∧
        ({ tx.reset .serial with start := now, lockAttempts := tx.lockAttempts + 1 }, locked) =
          (tx', c) := by
    simpa [Transaction.beginSerial, Option.bind_eq_some_iff] using hb
  obtain ⟨rfl, rfl⟩ := Prod.mk.inj heq
  cases held with
  | true => simp at hnow
  | false =>
    have hstamp : stamp h.count = now := by simpa using hnow
    subst hstamp
    obtain ⟨-, -, rfl⟩ := (Clock.lock?_of_eq_some_iff S.room S.room).1 hlock
    refine ⟨rfl, rfl, rfl, rfl, ?_⟩
    exact {
      since_le := Nat.le_refl _
      le_count := Nat.le_refl _
      within := fun _ hx => absurd hx List.not_mem_nil
      agrees := trivial
      holds := WriteLog.holds_empty
      optimistic := fun hr => by cases hr
      serial := fun _ => ⟨rfl, rfl, rfl⟩
      exclusive := fun hr => by cases hr
      readOnly := fun hr => by cases hr }

/-- An exclusive attempt begins at the last memory. -/
theorem beginExclusive (tx : Transaction) (c : Clock) :
    Attempt P h c h.count h.count [] (tx.beginExclusive c) where
  since_le := Nat.le_refl _
  le_count := Nat.le_refl _
  within := fun _ hx => absurd hx List.not_mem_nil
  agrees := trivial
  holds := WriteLog.holds_empty
  optimistic := fun hr => by cases hr
  serial := fun hr => by cases hr
  exclusive := fun _ => rfl
  readOnly := fun hr => by cases hr

/-- An irrevocable attempt stands at the end. -/
theorem at_end (A : Attempt P h c since k t tx) (hi : tx.role.isIrrevocable = true) :
    k = h.count := by
  cases hrole : tx.role with
  | readOnly => rw [hrole] at hi; cases hi
  | readWrite => rw [hrole] at hi; cases hi
  | serial => exact (A.serial hrole).1
  | exclusive => exact A.exclusive hrole

/-- A serial attempt holds the clock. -/
theorem held_of_serial (A : Attempt P h s.clock since k t tx) (S : s.Shows P h held)
    (hr : tx.role = .serial) : held = true := by
  have hlocked := congrArg Clock.isLocked ((A.serial hr).2.2.symm.trans S.clock)
  simpa using hlocked.symm

/-- An attempt whose log is consistent with memory may move to the end of the history. -/
theorem agrees_last (A : Attempt P h c since k t tx) (S : s.Shows P h held)
    (ho : tx.role.isIrrevocable = false) (hcons : tx.reads.isConsistent s.memory = true) :
    Agrees t h.last :=
  (agrees_congr A.within S.memory).1 (((A.optimistic ho).2.consistent _).1 hcons)

/-- The clock value that a read agrees with is the stamp of the last memory, with which all
earlier reads agree too. -/
theorem agrees_of_currentStart (A : Attempt P h c since k t tx) (S : s.Shows P h held)
    (ho : tx.role.isIrrevocable = false) {start : Timestamp}
    (hstart : tx.currentStart s = some (.ok start)) :
    start = stamp h.count ∧ Agrees t h.last := by
  have hroom : k < clockLimit := Nat.lt_of_le_of_lt A.le_count S.room
  unfold Transaction.currentStart at hstart
  split at hstart
  · next hnow =>
    -- Nothing was published since the start.
    rw [S.clock, (A.optimistic ho).1, Clock.now_of_eq_stamp_iff S.room hroom] at hnow
    obtain ⟨-, hk⟩ := hnow
    have hst : tx.start = start := by simpa using hstart
    refine ⟨by rw [← hst, (A.optimistic ho).1, hk], ?_⟩
    have := A.agrees
    rwa [← hk] at this
  · next =>
    obtain ⟨hfree, hcons⟩ := Transaction.validate_eq_some_ok_iff.1 hstart
    refine ⟨?_, A.agrees_last S ho hcons⟩
    rw [S.clock, Clock.unlocked?_of] at hfree
    cases held <;> simp_all

/-- A read keeps an attempt at the memory where it stands or moves it to the last one. -/
theorem read (A : Attempt P h s.clock since k t tx) (S : s.Shows P h held) {a : Addr}
    (ha : P a) {mask : Mask} {result : Except TxError Word}
    (hr : tx.read s a mask = some (result, tx')) :
    ∃ k', k ≤ k' ∧ Attempt P h s.clock since k' (t ++ [.read a mask result]) tx' := by
  have within : Within P (t ++ [.read a mask result]) := within_concat.2 ⟨A.within, ha⟩
  have readOnly : tx.role = .readOnly → ReadsOnly (t ++ [.read a mask result]) := fun h =>
    readsOnly_concat_read (A.readOnly h) a mask result
  obtain ⟨bits, covered, hl, hcase⟩ := Transaction.read_cases hr
  rcases hcase with ⟨rfl, rfl, rfl⟩ | ⟨hirr, rfl, rfl⟩ | ⟨ho, start, hstart, rfl, rfl⟩ |
    ⟨ho, e, -, rfl, rfl⟩
  · -- The buffer answers.
    refine ⟨k, Nat.le_refl k,
      { A with within, readOnly, agrees := ?_, holds := ?_, optimistic := ?_ }⟩
    · rw [agrees_read_concat, ← A.holds]
      exact ⟨A.agrees, WriteLog.and_mask_of_lookup hl _⟩
    · exact A.holds.read _ _ _
    · exact fun ho => ⟨(A.optimistic ho).1, (A.optimistic ho).2.buffered hl⟩
  · -- An irrevocable attempt stands at the end, so memory answers for that.
    refine ⟨k, Nat.le_refl k,
      { A with within, readOnly, agrees := ?_, holds := ?_, optimistic := ?_ }⟩
    · rw [agrees_read_concat, ← A.holds]
      refine ⟨A.agrees, (WriteLog.merge_lookup_eq_iff hl _ _).2 ?_⟩
      rw [S.memory a ha, A.at_end hirr]
      simp [History.last]
    · exact A.holds.read _ _ _
    · intro ho
      rw [hirr] at ho
      cases ho
  · -- The log agrees with the end of the history, so the value joins reads that all hold there.
    obtain ⟨rfl, hlast⟩ := A.agrees_of_currentStart S ho hstart
    refine ⟨h.count, A.le_count, ?_⟩
    exact {
      since_le := Nat.le_trans A.since_le A.le_count
      le_count := Nat.le_refl _
      within
      readOnly
      agrees := by
        rw [agrees_read_concat, ← A.holds]
        refine ⟨hlast, (WriteLog.merge_lookup_eq_iff hl _ _).2 ?_⟩
        rw [S.memory a ha]
        simp [History.last]
      holds := A.holds.read _ _ _
      optimistic := fun _ => ⟨rfl, (A.optimistic ho).2.fetched hl _⟩
      serial := fun hrole => by simp only at hrole; rw [hrole] at ho; cases ho
      exclusive := fun _ => rfl }
  · -- A read that fails leaves the attempt as it is.
    refine ⟨k, Nat.le_refl k,
      { A with within, readOnly, agrees := ?_, holds := ?_, optimistic := ?_ }⟩
    · exact (agrees_failure_concat _ _ _ _ _).2 A.agrees
    · exact A.holds.read _ _ _
    · exact fun ho => ⟨(A.optimistic ho).1, (A.optimistic ho).2.failed _ _ _⟩

theorem write (A : Attempt P h c since k t tx) {a : Addr} (ha : P a) (v : Word) (mask : Mask) :
    Attempt P h c since k (t ++ [.write a v mask]) (tx.write a v mask) where
  since_le := A.since_le
  le_count := A.le_count
  within := within_concat.2 ⟨A.within, ha⟩
  agrees := (agrees_write_concat _ _ _ _ _).2 A.agrees
  holds := A.holds.write a v mask
  optimistic ho := by
    -- A first write makes an optimistic attempt of an optimistic one.
    have ho' : tx.role.isIrrevocable = false := by
      rcases Transaction.role_write tx a v mask with ⟨-, hrole⟩ | ⟨hrole, -⟩
      · rw [hrole]; rfl
      · rwa [hrole] at ho
    exact ⟨(A.optimistic ho').1, (A.optimistic ho').2.write a v mask⟩
  serial hr := by
    rcases Transaction.role_write tx a v mask with ⟨hrole, -⟩ | ⟨hrole, -⟩
    · rw [hrole] at hr; cases hr
    · exact A.serial (hrole ▸ hr)
  exclusive hr := by
    rcases Transaction.role_write tx a v mask with ⟨hrole, -⟩ | ⟨hrole, -⟩
    · rw [hrole] at hr; cases hr
    · exact A.exclusive (hrole ▸ hr)
  readOnly hr := by
    -- After a write no attempt is read-only.
    rcases Transaction.role_write tx a v mask with ⟨hrole, -⟩ | ⟨hrole, hne⟩
    · rw [hrole] at hr; cases hr
    · exact absurd (hrole ▸ hr) hne

/-- The publications and the clock of others leave an optimistic attempt where it stands. -/
theorem of_others {h' : History} (A : Attempt P h c since k t tx)
    (ho : tx.role.isIrrevocable = false) (hcount : h.count ≤ h'.count)
    (hmem : h'.memory k = h.memory k) (c' : Clock) : Attempt P h' c' since k t tx :=
  { A with
    le_count := Nat.le_trans A.le_count hcount
    agrees := hmem ▸ A.agrees
    serial := fun hr => by rw [hr] at ho; cases ho
    exclusive := fun hr => by rw [hr] at ho; cases ho }

/-- After a publication by another an optimistic attempt stands where it stood. -/
theorem publish (A : Attempt P h c since k t tx) (ho : tx.role.isIrrevocable = false)
    (m : Memory) (c' : Clock) : Attempt P (h.publish m) c' since k t tx :=
  A.of_others ho (Nat.le_succ _) (History.memory_publish_of_le A.le_count m) c'

/-- What a commit finds and does. A commit that publishes finds the attempt at the last memory
and publishes its writes. -/
theorem commit (A : Attempt P h s.clock since k t tx) (S : s.Shows P h held)
    {result : Except TxError CommitKind} (hc : tx.commit s = some (result, tx', s')) :
    (∃ e, result = .error e ∧ s' = s ∧ tx'.role = tx.role ∧ tx'.active = tx.active ∧
        Attempt P h s.clock since k t tx') ∨
      (result = .ok .readOnly ∧ s' = s ∧ ReadsOnly t ∧ tx.role = .readOnly ∧
        tx' = tx.finish) ∨
      (∃ kind n, result = .ok kind ∧ (kind = .readWrite ∧ tx.role = .readWrite ∧ held = false ∨
          kind = .serial ∧ tx.role = .serial) ∧
        Agrees t h.last ∧ s' = ⟨after t s.memory, .of (h.count + 1) false⟩ ∧
        tx' = ({ tx with start := stamp (h.count + 1), lockAttempts := n } : Transaction).finish) ∨
      (result = .ok .exclusive ∧ tx.role = .exclusive ∧ Agrees t h.last ∧
        s' = ⟨after t s.memory, s.clock⟩ ∧ tx' = tx.finish) := by
  rcases Transaction.commit_cases hc with ⟨hrole, rfl, rfl, rfl⟩ |
    ⟨hrole, now, locked, hlock, hnow, rfl, rfl, n, rfl⟩ | ⟨hrole, -, rfl, rfl, n, rfl⟩ |
    ⟨hrole, rfl, rfl, rfl⟩ | ⟨hrole, rfl, rfl, rfl⟩
  · -- Nothing was written, so the attempt ends where it stands.
    exact Or.inr (Or.inl ⟨rfl, rfl, A.readOnly hrole, hrole, rfl⟩)
  · have ho : tx.role.isIrrevocable = false := by rw [hrole]; rfl
    have hfacts : held = false ∧ now = stamp h.count ∧ Agrees t h.last := by
      rcases hnow with rfl | hval
      · -- The clock was taken at the start, so nothing was published since.
        have hroom : k < clockLimit := Nat.lt_of_le_of_lt A.le_count S.room
        rw [S.clock, (A.optimistic ho).1, Clock.lock?_of_eq_some_iff S.room hroom] at hlock
        obtain ⟨hheld, hk, -⟩ := hlock
        refine ⟨hheld, by rw [(A.optimistic ho).1, hk], ?_⟩
        have := A.agrees
        rwa [← hk] at this
      · obtain ⟨hfree, hcons⟩ := Transaction.validate_eq_some_ok_iff.1 hval
        have hlast := A.agrees_last S ho hcons
        rw [S.clock, Clock.unlocked?_of] at hfree
        cases held <;> simp_all
    obtain ⟨hheld, rfl, hlast⟩ := hfacts
    refine Or.inr (Or.inr (Or.inl ⟨_, n, rfl, Or.inl ⟨rfl, hrole, hheld⟩, hlast, ?_, ?_⟩))
    · rw [A.holds, Clock.unlock_stamp]
    · rw [stamp_succ]
  · exact Or.inl ⟨_, rfl, rfl, rfl, rfl, { A with }⟩
  · -- A serial attempt held the clock all along.
    obtain ⟨hk, hstart, -⟩ := A.serial hrole
    refine Or.inr (Or.inr (Or.inl ⟨_, tx.lockAttempts, rfl, Or.inr ⟨rfl, hrole⟩, ?_, ?_, ?_⟩))
    · have := A.agrees
      rwa [hk] at this
    · rw [A.holds, hstart, Clock.unlock_stamp, hk]
    · rw [hstart, stamp_succ, hk]
  · refine Or.inr (Or.inr (Or.inr ⟨rfl, hrole, ?_, ?_, rfl⟩))
    · have := A.agrees
      rwa [A.exclusive hrole] at this
    · rw [A.holds]

/-- A serial attempt that ends without a commit releases the clock and publishes nothing. -/
theorem released (A : Attempt P h c since k t tx) (hactive : tx.role = .serial → tx.active) :
    tx.released c = if tx.role = .serial then .of (h.count + 1) false else c := by
  unfold Transaction.released
  by_cases hrole : tx.role = .serial
  · obtain ⟨hk, hstart, -⟩ := A.serial hrole
    rw [if_pos ⟨hactive hrole, hrole⟩, if_pos hrole, hstart, Clock.unlock_stamp, hk]
  · rw [if_neg (fun hr => hrole hr.2), if_neg hrole]

end Attempt

end HybridTM
