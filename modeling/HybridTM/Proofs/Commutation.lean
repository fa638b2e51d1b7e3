import HybridTM.Proofs.Aborts
import HybridTM.Proofs.Blocks

/-!
# Transactions that do not conflict commute

Any number of optimistic transactions run a block each, one call at a time in any order
(`BlockTransactions.run`). No bit that one of them writes when it runs alone is read or written by
another when that runs alone; they may well use different bytes of the same words. Then whatever the
order, no call waits and none fails, each transaction is told what it is told alone, and memory ends
the same (`BlockTransactions.commute`).

The invariant of every order is that a bit holds what the committed transaction that writes it
leaves there alone, and that every other bit is as in the beginning
(`BlockTransactions.Undisturbed`). So what a transaction under way took from memory is still there,
and every validation succeeds.
-/

set_option autoImplicit false

namespace HybridTM

/-! ## The bits of a block -/

namespace BlockEvent

/-- An access is to the bit of a word. -/
def Touches : BlockEvent → Addr → Nat → Prop
  | .read c mask _, a, n => c = a ∧ Word.bit mask n = true
  | .write c _ mask _, a, n => c = a ∧ Word.bit mask n = true

/-- An access succeeded. -/
def Succeeds : BlockEvent → Prop
  | .read _ _ result => ∃ v, result = .ok v
  | .write _ _ _ result => result = .ok ()

/-- An access writes to the bit of a word. -/
def Writes : BlockEvent → Addr → Nat → Prop
  | .read _ _ _, _, _ => False
  | .write c _ mask _, a, n => c = a ∧ Word.bit mask n = true

theorem Writes.touches {e : BlockEvent} {a : Addr} {n : Nat} (h : e.Writes a n) :
    e.Touches a n := by
  cases e with
  | read c mask result => exact h.elim
  | write c v mask result => exact h

end BlockEvent

namespace Block

/-- A block that runs alone on a memory reads or writes the bit of a word. -/
def Touches (b : Block) (m : Memory) (a : Addr) (n : Nat) : Prop :=
  ∃ e ∈ (b.plain m).1, e.Touches a n

/-- A block that runs alone on a memory writes the bit of a word. -/
def Writes (b : Block) (m : Memory) (a : Addr) (n : Nat) : Prop :=
  ∃ e ∈ (b.plain m).1, e.Writes a n

variable {b : Block} {m : Memory} {a : Addr} {n : Nat}

/-- Alone no access fails. -/
theorem succeeds_of_plain {e : BlockEvent} (he : e ∈ (b.plain m).1) : e.Succeeds := by
  induction b generalizing m with
  | commit value => cases he
  | giveUp err => cases he
  | read a mask next ih =>
    rcases List.mem_cons.1 he with rfl | he
    · exact ⟨_, rfl⟩
    · exact ih _ he
  | write a v mask next ih =>
    rcases List.mem_cons.1 he with rfl | he
    · rfl
    · exact ih _ he

/-- Alone no commit is refused. -/
theorem report_ne_refused (b : Block) (m : Memory) (err : TxError) :
    (b.report m).ending ≠ .refused err := by
  rcases hplain : b.plain m with ⟨events, view, wish⟩
  rw [report, hplain]
  cases wish <;> nofun

theorem Writes.touches (h : b.Writes m a n) : b.Touches m a n := by
  obtain ⟨e, he, hwrites⟩ := h
  exact ⟨e, he, hwrites.touches⟩

end Block

/-! ## Blocks call by call -/

/-- Where a transaction stands with its block. -/
inductive BlockStage where
  /-- It has not begun. -/
  | waiting (b : Block)
  /-- It is under way, and this is left to do. -/
  | running (rest : Block)
  /-- It has ended. -/
  | ended (ending : BlockEnd)

namespace BlockStage

/-- The next call, if there is one. -/
def request : BlockStage → Option TxRequest
  | .waiting _ => some (.act .begin)
  | .running (.read a mask _) => some (.act (.read a mask))
  | .running (.write a v mask _) => some (.act (.write a v mask))
  | .running (.commit _) => some (.act .commit)
  | .running (.giveUp _) => some (.act .rollback)
  | .ended _ => none

/-- Where the transaction stands after the reply to its call, and the access that it made. -/
def next : BlockStage → TxReply → BlockStage × List BlockEvent
  | .waiting b, _ => (.running b, [])
  | .running (.read a mask next), .act (.value result) =>
      (.running (next result), [.read a mask result])
  | .running (.write a v mask next), _ => (.running (next (.ok ())), [.write a v mask (.ok ())])
  | .running (.commit value), .act (.committed (.ok _)) => (.ended (.committed value), [])
  | .running (.commit _), .act (.committed (.error err)) => (.ended (.refused err), [])
  | .running (.giveUp err), _ => (.ended (.abandoned err), [])
  | stage, _ => (stage, [])

/-- How it ended, once it has. -/
def ending? : BlockStage → Option BlockEnd
  | .ended ending => some ending
  | _ => none

/-- It has ended in a commit. -/
def Committed (stage : BlockStage) : Prop := ∃ value, stage.ending? = some (.committed value)

theorem not_committed_running (rest : Block) : ¬ (running rest).Committed := by
  rintro ⟨value, h⟩
  cases h

end BlockStage

/-! ## A transaction among others -/

/-- An attempt under way that has made some accesses sees what its block sees alone. -/
structure Transaction.Sees (m view : Memory) (events : List BlockEvent) (tx : Transaction) :
    Prop where
  /-- It is optimistic. -/
  optimistic : tx.Optimistic
  /-- Its writes make of the first memory what its block sees. -/
  view : tx.writes.writeBack m = view
  /-- It has written what it has buffered. -/
  covers : ∀ a n, n < 64 → tx.writes.Covers a n → ∃ e ∈ events, e.Writes a n
  /-- What it took from memory is what the first memory holds. -/
  took : ∀ a n v, n < 64 → tx.reads.Took a n v →
    Word.bit (m.read a) n = v ∧ ∃ e ∈ events, e.Touches a n
  /-- While it is read-only it has buffered nothing. -/
  readOnly : tx.role = .readOnly → ∀ a n, ¬ tx.writes.Covers a n

/-- After a number of calls a transaction stands with its block where it stands alone. -/
inductive Transaction.Stands (b : Block) (m : Memory) :
    Nat → BlockStage → List BlockEvent → Transaction → Prop
  /-- It has not begun. -/
  | waiting {tx : Transaction} (idle : tx.active = false) : Stands b m 0 (.waiting b) [] tx
  /-- It is under way. -/
  | running {rest : Block} {view : Memory} {events : List BlockEvent} {tx : Transaction}
      (plain : b.plain m = (events ++ (rest.plain view).1, (rest.plain view).2))
      (sees : tx.Sees m view events) : Stands b m (events.length + 1) (.running rest) events tx
  /-- It has ended. -/
  | ended {k : Nat} {tx : Transaction} (enough : (b.plain m).1.length + 2 ≤ k) :
      Stands b m k (.ended (b.report m).ending) (b.plain m).1 tx

/-- What a call does to memory: once the transaction has committed, the bits that it writes are as
alone, and apart from that nothing changes. -/
structure Block.Leaves (b : Block) (m before after : Memory) (stage : BlockStage) : Prop where
  /-- A commit leaves the bits that it writes as alone. -/
  written : stage.Committed → ∀ a n, n < 64 → b.Writes m a n →
    Word.bit (after.read a) n = Word.bit ((b.report m).memory.read a) n
  /-- The other bits stay as they are. -/
  unwritten : ∀ a n, n < 64 → (b.Writes m a n → ¬ stage.Committed) →
    Word.bit (after.read a) n = Word.bit (before.read a) n

theorem Block.leaves_self (b : Block) (m before : Memory) {stage : BlockStage}
    (h : ¬ stage.Committed) : b.Leaves m before before stage where
  written hcommitted := absurd hcommitted h
  unwritten _ _ _ _ := rfl

namespace Transaction

variable {b : Block} {m view : Memory} {events : List BlockEvent} {tx tx' : Transaction}
  {s s' : Shared} {a : Addr} {mask : Mask}

theorem begin_sees (tx : Transaction) (c : Clock) (m : Memory) : (tx.begin c).Sees m m [] where
  optimistic := ⟨rfl, rfl⟩
  view := WriteLog.writeBack_empty m
  covers _ _ _ h := absurd h WriteLog.not_covers_empty
  took _ _ _ _ h := absurd h ReadLog.not_took_empty
  readOnly _ _ _ := WriteLog.not_covers_empty

namespace Sees

/-- Where memory holds what the first memory did, for every bit that was taken, it does not differ
from the read log. -/
theorem not_differs (S : tx.Sees m view events)
    (current : ∀ a n, n < 64 → (∃ e ∈ events, e.Touches a n) →
      Word.bit (s.memory.read a) n = Word.bit (m.read a) n) :
    ¬ tx.reads.Differs s.memory := by
  rw [ReadLog.differs_iff_took]
  rintro ⟨a, n, v, hn, htook, hne⟩
  obtain ⟨hv, htouched⟩ := S.took a n v hn htook
  exact hne ((current a n hn htouched).trans hv)

/-- A read that logs only what memory holds under its mask, where that is as at first, keeps to the
view. -/
theorem after_read (S : tx.Sees m view events) {a : Addr} {mask : Mask}
    {result : Except TxError Word} {tx' : Transaction} (h : tx.read s a mask = some (result, tx'))
    (current : ∀ n, n < 64 → Word.bit mask n = true →
      Word.bit (s.memory.read a) n = Word.bit (m.read a) n)
    (took : ∀ c n v, n < 64 → tx'.reads.Took c n v → tx.reads.Took c n v ∨
      c = a ∧ Word.bit mask n = true ∧ Word.bit (s.memory.read a) n = v) :
    tx'.Sees m view (events ++ [.read a mask (.ok (view.read a &&& mask))]) := by
  obtain ⟨hrole, hactive, hwrites⟩ := kept_read h
  exact {
    optimistic := ⟨hactive.trans S.optimistic.active, by rw [hrole]; exact S.optimistic.role⟩
    view := by rw [hwrites]; exact S.view
    covers := by
      intro c n hn hcovers
      obtain ⟨e, he, htouches⟩ := S.covers c n hn (hwrites ▸ hcovers)
      exact ⟨e, List.mem_append_left _ he, htouches⟩
    took := by
      intro c n v hn htook
      rcases took c n v hn htook with htook | ⟨rfl, hmask, hv⟩
      · obtain ⟨hv, e, he, htouches⟩ := S.took c n v hn htook
        exact ⟨hv, e, List.mem_append_left _ he, htouches⟩
      · exact ⟨(current n hn hmask).symm.trans hv, _,
          List.mem_append_right _ (List.mem_singleton.2 rfl), rfl, hmask⟩
    readOnly := fun hro => by rw [hwrites]; exact S.readOnly (hrole ▸ hro) }

/-- Under the buffer memory gives the view, as far as it is as at first. -/
theorem merge_eq (S : tx.Sees m view events) {a : Addr} {mask : Mask} {bits covered : Word}
    (hlookup : tx.writes.lookup a mask = (bits, covered))
    (current : ∀ n, n < 64 → Word.bit mask n = true →
      Word.bit (s.memory.read a) n = Word.bit (m.read a) n) :
    merge (s.memory.read a &&& (mask &&& ~~~covered)) bits covered = view.read a &&& mask := by
  rw [← S.view, WriteLog.merge_lookup_eq_iff hlookup, Word.eq_iff_bit]
  intro n hn
  rw [Word.bit_and, Word.bit_zero, Word.bit_xor]
  cases hremaining : Word.bit (mask &&& ~~~covered) n with
  | false => exact Bool.and_false _
  | true =>
    obtain ⟨hmask, -⟩ := (WriteLog.bit_remaining hlookup hn).1 hremaining
    rw [current n hn hmask, Bool.xor_self, Bool.false_and]

/-- A read gives what it gives alone. -/
theorem read (S : tx.Sees m view events) (free : s.clock.isLocked = false) (a : Addr) (mask : Mask)
    (current : ∀ c n, n < 64 → ((∃ e ∈ events, e.Touches c n) ∨ c = a ∧ Word.bit mask n = true) →
      Word.bit (s.memory.read c) n = Word.bit (m.read c) n) :
    ∃ tx', tx.read s a mask = some (.ok (view.read a &&& mask), tx') ∧
      tx'.Sees m view (events ++ [.read a mask (.ok (view.read a &&& mask))]) := by
  have fresh := S.not_differs fun c n hn htouched => current c n hn (Or.inl htouched)
  have masked (n : Nat) (hn : n < 64) (hmask : Word.bit mask n = true) :
      Word.bit (s.memory.read a) n = Word.bit (m.read a) n := current a n hn (Or.inr ⟨rfl, hmask⟩)
  obtain ⟨result, tx', hread, hfails, hfailed⟩ := S.optimistic.read_of_free free a mask
  have sees := S.after_read hread masked
  obtain ⟨bits, covered, hlookup, h | h | h | h⟩ := read_cases hread
  · obtain ⟨rfl, rfl, rfl⟩ := h
    refine ⟨tx', ?_, sees fun c n v _ htook => Or.inl htook⟩
    rw [hread, WriteLog.and_mask_of_lookup hlookup m, S.view]
  · exact absurd h.1 (by rw [S.optimistic.role]; exact Bool.false_ne_true)
  · obtain ⟨-, start, -, rfl, rfl⟩ := h
    refine ⟨_, by rw [hread, S.merge_eq hlookup masked], sees fun c n v hn htook => ?_⟩
    rcases ReadLog.took_record.1 htook with htook | ⟨rfl, hremaining, hv⟩
    · exact Or.inl htook
    · exact Or.inr ⟨rfl, ((WriteLog.bit_remaining hlookup hn).1 hremaining).1, hv⟩
  · obtain ⟨-, err, -, rfl, -⟩ := h
    obtain ⟨rfl, -⟩ := hfailed err rfl
    exact absurd (hfails.1 rfl).2.2 fresh

/-- So does a write. -/
theorem write (S : tx.Sees m view events) (a : Addr) (v : Word) (mask : Mask) :
    (tx.write a v mask).Sees m (view.store a v mask)
      (events ++ [.write a v mask (.ok ())]) where
  optimistic := by
    refine ⟨S.optimistic.active, ?_⟩
    rcases tx.role_write a v mask with ⟨hrole, -⟩ | ⟨hrole, -⟩ <;> rw [hrole]
    · rfl
    · exact S.optimistic.role
  view := by
    rw [← S.view]
    exact WriteLog.writeBack_insert _ _ _ _ _
  covers c n hn hcovers := by
    rcases WriteLog.covers_insert.1 hcovers with hcovers | hlast
    · obtain ⟨e, he, hwrites⟩ := S.covers c n hn hcovers
      exact ⟨e, List.mem_append_left _ he, hwrites⟩
    · exact ⟨_, List.mem_append_right _ (List.mem_singleton.2 rfl), hlast⟩
  took c n w hn htook := by
    obtain ⟨hw, e, he, htouches⟩ := S.took c n w hn htook
    exact ⟨hw, e, List.mem_append_left _ he, htouches⟩
  readOnly hrole := by
    rcases tx.role_write a v mask with ⟨hw, -⟩ | ⟨hw, hne⟩
    · rw [hw] at hrole
      cases hrole
    · exact absurd (hw ▸ hrole) hne

/-- A commit succeeds, writes the buffer to memory and leaves the clock free. -/
theorem commit (S : tx.Sees m view events) (free : s.clock.isLocked = false)
    (fresh : ¬ tx.reads.Differs s.memory) :
    ∃ kind tx' s', tx.commit s = some (.ok kind, tx', s') ∧ s'.clock.isLocked = false ∧
      ∀ a n, n < 64 → Word.bit (s'.memory.read a) n =
        Word.bit ((tx.writes.writeBack s.memory).read a) n := by
  obtain ⟨result, tx', s', hcommit, hfails, -, hfailed⟩ := S.optimistic.commit_of_free free
  rcases commit_cases hcommit with ⟨hrole, rfl, -, rfl⟩ |
    ⟨-, now, locked, hlock, -, rfl, rfl, -⟩ | ⟨-, -, rfl, -⟩ | ⟨hrole, -⟩ | ⟨hrole, -⟩
  · refine ⟨_, tx', s', hcommit, free, fun a n hn => ?_⟩
    exact (WriteLog.bit_writeBack_of_not_covers hn (S.readOnly hrole a n) _).symm
  · obtain ⟨rfl, -⟩ := Clock.lock?_eq_some_iff.1 hlock
    refine ⟨_, tx', _, hcommit, ?_, fun _ _ _ => rfl⟩
    exact (Clock.isLocked_add_two s.clock.now).trans free
  · exact absurd (hfails.1 rfl).2.2 fresh
  · exact absurd S.optimistic.role (by rw [hrole]; exact Bool.true_eq_false.mp)
  · exact absurd S.optimistic.role (by rw [hrole]; exact Bool.true_eq_false.mp)

end Sees

end Transaction

/-- What comes of a call of a transaction that is not over. -/
structure Transaction.Advances (b : Block) (m : Memory) (k : Nat) (stage : BlockStage)
    (events : List BlockEvent) (s : Shared) (reply : TxReply) (tx' : Transaction) (s' : Shared) :
    Prop where
  /-- It stands one call further. -/
  stands : Stands b m (k + 1) (stage.next reply).1 (events ++ (stage.next reply).2) tx'
  /-- The clock is free. -/
  free : s'.clock.isLocked = false
  /-- Memory has the bits of a commit. -/
  leaves : b.Leaves m s.memory s'.memory (stage.next reply).1

namespace Transaction.Stands

variable {b rest : Block} {m view : Memory} {k : Nat} {stage : BlockStage}
  {events : List BlockEvent} {tx : Transaction} {s : Shared} {c : TxRequest}

/-- What is left of a block is among its accesses. -/
theorem touches_of_mem (plain : b.plain m = (events ++ (rest.plain view).1, (rest.plain view).2))
    {e : BlockEvent} (he : e ∈ events ∨ e ∈ (rest.plain view).1) : e ∈ (b.plain m).1 := by
  rw [plain]
  exact List.mem_append.2 he

/-- Alone a block that is done leaves the bits that it buffered. -/
theorem leaves_of_commit {value : Word} (S : tx.Sees m view events)
    (plain : b.plain m = (events, view, .ok value))
    (current : ∀ a n, n < 64 → b.Touches m a n →
      Word.bit (s.memory.read a) n = Word.bit (m.read a) n) {after : Memory}
    (hafter : ∀ a n, n < 64 → Word.bit (after.read a) n =
      Word.bit ((tx.writes.writeBack s.memory).read a) n) :
    b.Leaves m s.memory after (.ended (.committed value)) where
  written _ a n hn hwrites := by
    have hmemory : (b.report m).memory = tx.writes.writeBack m := by
      rw [Block.report, plain, S.view]
    rw [hafter a n hn, hmemory]
    by_cases hcovers : tx.writes.Covers a n
    · exact WriteLog.bit_writeBack_of_covers hn hcovers _ _
    · rw [WriteLog.bit_writeBack_of_not_covers hn hcovers,
        WriteLog.bit_writeBack_of_not_covers hn hcovers]
      exact current a n hn hwrites.touches
  unwritten a n hn h := by
    rw [hafter a n hn]
    refine WriteLog.bit_writeBack_of_not_covers hn (fun hcovers => ?_) _
    obtain ⟨e, he, hwrites⟩ := S.covers a n hn hcovers
    exact h ⟨e, by rw [plain]; exact he, hwrites⟩ ⟨value, rfl⟩

/-- A transaction that is not over makes its next call, without waiting or failing, where memory
holds for its block what the first memory did. -/
theorem advance (S : Stands b m k stage events tx) (hc : stage.request = some c)
    (free : s.clock.isLocked = false)
    (current : ∀ a n, n < 64 → b.Touches m a n →
      Word.bit (s.memory.read a) n = Word.bit (m.read a) n) :
    ∃ reply tx' s', c.Allowed tx ∧ tx.respond s c = some (reply, tx', s') ∧
      Advances b m k stage events s reply tx' s' := by
  cases S with
  | waiting idle =>
    cases hc
    refine ⟨.act .done, tx.begin s.clock, s, idle, rfl, ?_, free, b.leaves_self m _ ?_⟩
    · exact .running rfl (tx.begin_sees s.clock m)
    · exact BlockStage.not_committed_running b
  | ended => cases hc
  | @running rest view events tx plain sees =>
    have length_concat (e : BlockEvent) :
        events.length + 1 + 1 = (events ++ [e]).length + 1 := by
      rw [List.length_append, List.length_singleton]
    have hevents {e : BlockEvent} (he : e ∈ events ∨ e ∈ (rest.plain view).1) {a : Addr} {n : Nat}
        (htouches : e.Touches a n) : b.Touches m a n := ⟨e, touches_of_mem plain he, htouches⟩
    cases rest with
    | read a mask next =>
      cases hc
      obtain ⟨tx', hread, sees'⟩ := sees.read free a mask fun c n hn htouches => by
        refine current c n hn ?_
        rcases htouches with ⟨e, he, htouches⟩ | ⟨rfl, hmask⟩
        · exact hevents (Or.inl he) htouches
        · exact hevents (Or.inr List.mem_cons_self) ⟨rfl, hmask⟩
      refine ⟨.act (.value (.ok (view.read a &&& mask))), tx', s, sees.optimistic.active, ?_, ?_,
        free, b.leaves_self m _ ?_⟩
      · rw [Transaction.respond, Transaction.perform, hread]
        rfl
      · rw [length_concat]
        refine .running ?_ sees'
        rw [plain, List.append_assoc]
        rfl
      · exact BlockStage.not_committed_running _
    | write a v mask next =>
      cases hc
      refine ⟨.act .done, tx.write a v mask, s, sees.optimistic.active, rfl, ?_, free,
        b.leaves_self m _ ?_⟩
      · rw [length_concat]
        refine .running ?_ (sees.write a v mask)
        rw [plain, List.append_assoc]
        rfl
      · exact BlockStage.not_committed_running _
    | commit value =>
      cases hc
      have hplain : b.plain m = (events, view, .ok value) := by
        rw [plain, Block.plain, List.append_nil]
      have fresh := sees.not_differs fun a n hn htouched => by
        obtain ⟨e, he, htouches⟩ := htouched
        exact current a n hn (hevents (Or.inl he) htouches)
      obtain ⟨kind, tx', s', hcommit, free', hafter⟩ := sees.commit free fresh
      refine ⟨.act (.committed (.ok kind)), tx', s', sees.optimistic.active, ?_, ?_, free',
        leaves_of_commit sees hplain current hafter⟩
      · rw [Transaction.respond, Transaction.perform, hcommit]
        rfl
      · have hended : Stands b m (events.length + 1 + 1) _ _ tx' := .ended (by rw [hplain])
        rw [Block.report, hplain] at hended
        exact (List.append_nil events).symm ▸ hended
    | giveUp err =>
      cases hc
      have hplain : b.plain m = (events, view, .error err) := by
        rw [plain, Block.plain, List.append_nil]
      refine ⟨.act .done, tx.finish, s, trivial, ?_, ?_, free, b.leaves_self m _ ?_⟩
      · rw [Transaction.respond, Transaction.perform, sees.optimistic.rollback]
        rfl
      · have hended : Stands b m (events.length + 1 + 1) _ _ tx.finish := .ended (by rw [hplain])
        rw [Block.report, hplain] at hended
        exact (List.append_nil events).symm ▸ hended
      · rintro ⟨value, h⟩
        cases h

/-- Nothing more comes of a transaction that is over. -/
theorem stays (S : Stands b m k stage events tx) (hc : stage.request = none) :
    Stands b m (k + 1) stage events tx := by
  cases S with
  | waiting => cases hc
  | @running rest => cases rest <;> cases hc
  | ended enough => exact .ended (Nat.le_succ_of_le enough)

/-- The accesses made are those that the block makes in as many calls alone. -/
theorem events_eq (S : Stands b m k stage events tx) : events = (b.plain m).1.take (k - 1) := by
  cases S with
  | waiting => rfl
  | running plain =>
    rw [plain, Nat.add_sub_cancel, List.take_left]
  | ended enough => rw [List.take_of_length_le (by omega)]

/-- It has ended once it has made all calls, and then as the block does alone. -/
theorem ending_eq (S : Stands b m k stage events tx) : stage.ending? =
    if (b.plain m).1.length + 2 ≤ k then some (b.report m).ending else none := by
  cases S with
  | waiting => rw [if_neg (by omega)]; rfl
  | @running rest =>
    have unfinished : ¬ (b.plain m).1.length + 2 ≤ events.length + 1 := by
      rw [show (b.plain m).1 = events ++ (rest.plain _).1 from congrArg Prod.fst ‹_›,
        List.length_append]
      omega
    rw [if_neg unfinished]
    rfl
  | ended enough => rw [if_pos enough, BlockStage.ending?]

end Transaction.Stands

/-! ## Concurrent blocks -/

/-- Transactions on one memory and one clock, each with a block of its own. -/
structure BlockTransactions (ι : Type) where
  /-- Memory, the clock and the transactions. -/
  transactions : SharedTransactions ι
  /-- Where each stands with its block. -/
  stage : ι → BlockStage
  /-- The accesses each has made. -/
  events : ι → List BlockEvent

namespace BlockTransactions

variable {ι : Type} [DecidableEq ι]

/-- New transactions over a memory, before the first call. -/
def init (b : ι → Block) (m : Memory) : BlockTransactions ι :=
  ⟨.init m, fun i => .waiting (b i), fun _ => []⟩

/-- The state after a transaction was called. -/
def after (s : BlockTransactions ι) (i : ι) (x : Made ι) : BlockTransactions ι where
  transactions := x.state
  stage := Function.update s.stage i ((s.stage i).next x.reply).1
  events := Function.update s.events i (s.events i ++ ((s.stage i).next x.reply).2)

/-- A transaction makes its next call. It is not possible when it would have to wait, and a
transaction that has ended makes none. -/
def step (s : BlockTransactions ι) (i : ι) : Option (BlockTransactions ι) :=
  match (s.stage i).request with
  | none => some s
  | some c => (s.transactions.make i c).map (s.after i)

/-- The transactions make their calls in the given order. -/
def run (s : BlockTransactions ι) : List ι → Option (BlockTransactions ι)
  | [] => some s
  | i :: order => (s.step i).bind fun s' => s'.run order

/-- The memory. -/
def memory (s : BlockTransactions ι) : Memory := s.transactions.shared.memory

variable {s : BlockTransactions ι} {i j : ι} {x : Made ι}

theorem stage_after_self : (s.after i x).stage i = ((s.stage i).next x.reply).1 :=
  Function.update_self ..

theorem stage_after_of_ne (h : j ≠ i) : (s.after i x).stage j = s.stage j :=
  Function.update_of_ne h ..

theorem events_after_self : (s.after i x).events i = s.events i ++ ((s.stage i).next x.reply).2 :=
  Function.update_self ..

theorem events_after_of_ne (h : j ≠ i) : (s.after i x).events j = s.events j :=
  Function.update_of_ne h ..

end BlockTransactions

/-- No bit that one block writes when it runs alone is read or written by another when that runs
alone. -/
def Apart {ι : Type} (b : ι → Block) (m : Memory) : Prop :=
  ∀ i j, i ≠ j → ∀ a n, n < 64 → (b i).Writes m a n → ¬ (b j).Touches m a n

namespace BlockTransactions

variable {ι : Type} {b : ι → Block} {m : Memory} {count : ι → Nat} {s s' : BlockTransactions ι}
  {i j : ι}

/-- After each transaction was called a number of times it stands where it stands alone. A bit that
a committed one writes is as that leaves it alone, and all others are as in the beginning. -/
structure Undisturbed (b : ι → Block) (m : Memory) (count : ι → Nat) (s : BlockTransactions ι) :
    Prop where
  /-- The clock is free. -/
  free : s.transactions.shared.clock.isLocked = false
  /-- Each transaction stands where it stands alone. -/
  stands : ∀ i, (s.transactions.tx i).Stands (b i) m (count i) (s.stage i) (s.events i)
  /-- What is committed is as alone. -/
  written : ∀ i, (s.stage i).Committed → ∀ a n, n < 64 → (b i).Writes m a n →
    Word.bit (s.memory.read a) n = Word.bit (((b i).report m).memory.read a) n
  /-- Nothing else has changed. -/
  unwritten : ∀ a n, n < 64 → (∀ i, (b i).Writes m a n → ¬ (s.stage i).Committed) →
    Word.bit (s.memory.read a) n = Word.bit (m.read a) n

theorem undisturbed_init [DecidableEq ι] (b : ι → Block) (m : Memory) :
    Undisturbed b m (fun _ => 0) (init b m) where
  free := show Clock.zero.isLocked = false by decide
  stands _ := .waiting rfl
  written i hcommitted := by
    obtain ⟨value, h⟩ := hcommitted
    cases h
  unwritten _ _ _ _ := rfl

namespace Undisturbed

/-- For a transaction that is not over, memory holds what it did in the beginning. -/
theorem current (U : Undisturbed b m count s) (apart : Apart b m)
    (hi : (s.stage i).ending? = none) {a : Addr} {n : Nat} (hn : n < 64)
    (htouches : (b i).Touches m a n) :
    Word.bit (s.memory.read a) n = Word.bit (m.read a) n := by
  refine U.unwritten a n hn fun j hwrites hcommitted => ?_
  by_cases hj : j = i
  · subst hj
    obtain ⟨value, h⟩ := hcommitted
    rw [hi] at h
    cases h
  · exact apart j i hj a n hn hwrites htouches

variable [DecidableEq ι]

/-- One more call of a transaction that is not over. -/
theorem call (U : Undisturbed b m count s) (apart : Apart b m) {c : TxRequest}
    (hc : (s.stage i).request = some c) (hi : (s.stage i).ending? = none) :
    ∃ s', s.step i = some s' ∧ Undisturbed b m (Function.update count i (count i + 1)) s' := by
  obtain ⟨reply, tx', shared', allowed, hrespond, A⟩ :=
    (U.stands i).advance hc U.free fun a n hn => U.current apart hi hn
  have hmake := SharedTransactions.make_eq_some_iff.2 ⟨allowed, reply, tx', shared', hrespond, rfl⟩
  refine ⟨_, by rw [BlockTransactions.step, hc]; exact congrArg (Option.map (s.after i)) hmake, ?_⟩
  constructor
  · exact A.free
  · intro j
    by_cases hj : j = i
    · subst hj
      rw [stage_after_self, events_after_self, Function.update_self]
      simpa [after] using A.stands
    · rw [stage_after_of_ne hj, events_after_of_ne hj, Function.update_of_ne hj]
      simpa [after, hj] using U.stands j
  · intro j hcommitted a n hn hwrites
    by_cases hj : j = i
    · subst hj
      rw [stage_after_self] at hcommitted
      exact A.leaves.written hcommitted a n hn hwrites
    · rw [stage_after_of_ne hj] at hcommitted
      -- The caller writes no bit of another.
      rw [← U.written j hcommitted a n hn hwrites]
      refine A.leaves.unwritten a n hn fun hown => ?_
      exact absurd hwrites.touches (apart i j (Ne.symm hj) a n hn hown)
  · intro a n hn hunwritten
    have hown := hunwritten i
    rw [stage_after_self] at hown
    refine (A.leaves.unwritten a n hn hown).trans (U.unwritten a n hn fun j hwrites => ?_)
    by_cases hj : j = i
    · subst hj
      rintro ⟨value, h⟩
      rw [hi] at h
      cases h
    · have := hunwritten j hwrites
      rwa [stage_after_of_ne hj] at this

/-- A transaction that is over stands where it stands. -/
theorem stays (U : Undisturbed b m count s) (hi : (s.stage i).request = none) :
    Undisturbed b m (Function.update count i (count i + 1)) s where
  free := U.free
  stands j := by
    by_cases hj : j = i
    · subst hj
      rw [Function.update_self]
      exact (U.stands j).stays hi
    · rw [Function.update_of_ne hj]
      exact U.stands j
  written := U.written
  unwritten := U.unwritten

/-- One more call. -/
theorem step (U : Undisturbed b m count s) (apart : Apart b m) (i : ι) :
    ∃ s', s.step i = some s' ∧ Undisturbed b m (Function.update count i (count i + 1)) s' := by
  cases hc : (s.stage i).request with
  | none => exact ⟨s, by rw [BlockTransactions.step, hc], U.stays hc⟩
  | some c =>
    refine U.call apart hc ?_
    cases hstage : s.stage i with
    | waiting b => rfl
    | running rest => rfl
    | ended ending =>
      rw [hstage] at hc
      cases hc

theorem run (U : Undisturbed b m count s) (apart : Apart b m) (order : List ι) :
    ∃ s', s.run order = some s' ∧ Undisturbed b m (fun i => count i + order.count i) s' := by
  induction order generalizing s count with
  | nil => exact ⟨s, rfl, U⟩
  | cons i order ih =>
    obtain ⟨s₁, hstep, U₁⟩ := U.step apart i
    obtain ⟨s', hrun, U'⟩ := ih U₁
    refine ⟨s', by rw [BlockTransactions.run, hstep]; exact hrun, ?_⟩
    have hcount : (fun j => Function.update count i (count i + 1) j + order.count j) =
        fun j => count j + (i :: order).count j := by
      funext j
      by_cases hj : j = i
      · subst hj
        rw [Function.update_self, List.count_cons_self]
        omega
      · rw [Function.update_of_ne hj, List.count_cons_of_ne (Ne.symm hj)]
    rw [← hcount]
    exact U'

end Undisturbed

/-! ## Every order -/

section Orders

variable [DecidableEq ι] {order order' : List ι}

/-- A transaction is called as often as its block takes alone: it begins, makes its accesses and
ends. -/
def Complete (b : ι → Block) (m : Memory) (order : List ι) (i : ι) : Prop :=
  ((b i).plain m).1.length + 2 ≤ order.count i

/-- What becomes of the calls in an order. -/
structure Outcome (b : ι → Block) (m : Memory) (order : List ι) (s : BlockTransactions ι) :
    Prop where
  /-- No access has failed, and no commit. -/
  succeeds : ∀ i, (∀ e ∈ s.events i, e.Succeeds) ∧
    ∀ err, (s.stage i).ending? ≠ some (.refused err)
  /-- Each transaction has made the accesses, with the results, that it makes in as many calls when
  it runs alone, and has ended if it has ended then, and in the same way. -/
  alone : ∀ i, ∃ t, (init b m).run (List.replicate (order.count i) i) = some t ∧
    s.events i = t.events i ∧ (s.stage i).ending? = (t.stage i).ending?
  /-- Once it has made all its calls it has made all accesses of its block, and has ended as the
  block does: if the block commits, then in a commit. -/
  complete : ∀ i, Complete b m order i → s.events i = ((b i).plain m).1 ∧
    (s.stage i).ending? = some ((b i).report m).ending
  /-- A bit that is written in a commit is as after the block alone. -/
  written : ∀ i, (s.stage i).Committed → ∀ a n, n < 64 → (b i).Writes m a n →
    Word.bit (s.memory.read a) n = Word.bit (((b i).report m).memory.read a) n
  /-- Every other bit is as in the beginning. -/
  unwritten : ∀ a n, n < 64 → (∀ i, (b i).Writes m a n → ¬ (s.stage i).Committed) →
    Word.bit (s.memory.read a) n = Word.bit (m.read a) n

/-- The calls are possible in every order and leave each transaction where it is alone. -/
theorem exists_undisturbed (apart : Apart b m) (order : List ι) :
    ∃ s, (init b m).run order = some s ∧ Undisturbed b m order.count s := by
  obtain ⟨s, hrun, U⟩ := (undisturbed_init b m).run apart order
  refine ⟨s, hrun, ?_⟩
  simpa only [Nat.zero_add] using U

theorem outcome_of_undisturbed (apart : Apart b m) (U : Undisturbed b m order.count s) :
    Outcome b m order s where
  succeeds i := by
    refine ⟨fun e he => ?_, fun err => ?_⟩
    · rw [(U.stands i).events_eq] at he
      exact Block.succeeds_of_plain (List.mem_of_mem_take he)
    · rw [(U.stands i).ending_eq]
      split
      · exact fun h => (b i).report_ne_refused m err (Option.some.inj h)
      · nofun
  alone i := by
    obtain ⟨t, hrun, T⟩ := exists_undisturbed apart (List.replicate (order.count i) i)
    have hcount : (List.replicate (order.count i) i).count i = order.count i :=
      List.count_replicate_self
    refine ⟨t, hrun, ?_, ?_⟩
    · rw [(U.stands i).events_eq, (T.stands i).events_eq, hcount]
    · rw [(U.stands i).ending_eq, (T.stands i).ending_eq, hcount]
  complete i hcomplete := by
    unfold Complete at hcomplete
    rw [(U.stands i).events_eq, (U.stands i).ending_eq, if_pos hcomplete]
    exact ⟨List.take_of_length_le (by omega), rfl⟩
  written := U.written
  unwritten := U.unwritten

/-- Orders in which all transactions make all their calls lead to the same memory. -/
theorem memory_eq_of_complete (O : Outcome b m order s) (O' : Outcome b m order' s')
    (complete : ∀ i, Complete b m order i) (complete' : ∀ i, Complete b m order' i) :
    s.memory = s'.memory := by
  have hsame (i : ι) : (s.stage i).Committed ↔ (s'.stage i).Committed := by
    rw [BlockStage.Committed, BlockStage.Committed, (O.complete i (complete i)).2,
      (O'.complete i (complete' i)).2]
  apply Memory.ext
  funext a
  refine Word.ext_bit fun n hn => ?_
  by_cases hwritten : ∃ i, (b i).Writes m a n ∧ (s.stage i).Committed
  · obtain ⟨i, hwrites, hcommitted⟩ := hwritten
    rw [O.written i hcommitted a n hn hwrites, O'.written i ((hsame i).1 hcommitted) a n hn hwrites]
  · have hunwritten (i : ι) (hwrites : (b i).Writes m a n) : ¬ (s.stage i).Committed :=
      fun hcommitted => hwritten ⟨i, hwrites, hcommitted⟩
    rw [O.unwritten a n hn hunwritten,
      O'.unwritten a n hn fun i hwrites hcommitted => hunwritten i hwrites ((hsame i).2 hcommitted)]

/-- Transactions that do not conflict commute. -/
theorem commute (apart : Apart b m) :
    (∀ order, ∃ s, (init b m).run order = some s ∧ Outcome b m order s) ∧
      ∀ order order' s s', (init b m).run order = some s → (init b m).run order' = some s' →
        (∀ i, Complete b m order i) → (∀ i, Complete b m order' i) → s.memory = s'.memory := by
  have houtcome (order : List ι) : ∃ s, (init b m).run order = some s ∧ Outcome b m order s := by
    obtain ⟨s, hrun, U⟩ := exists_undisturbed apart order
    exact ⟨s, hrun, outcome_of_undisturbed apart U⟩
  refine ⟨houtcome, fun order order' s s' hrun hrun' complete complete' => ?_⟩
  obtain ⟨t, ht, O⟩ := houtcome order
  obtain ⟨t', ht', O'⟩ := houtcome order'
  obtain rfl := Option.some.inj (ht.symm.trans hrun)
  obtain rfl := Option.some.inj (ht'.symm.trans hrun')
  exact memory_eq_of_complete O O' complete complete'

end Orders

/-! ## Neighbours -/

/-- Two blocks that each increment a byte of the same word. The second one tells the next word
whether its byte was zero. -/
def neighbours : Bool → Block
  | false => .read 0 0xff fun
      | .ok v => .write 0 (v + 1) 0xff fun _ => .commit v
      | .error err => .giveUp err
  | true => .read 0 0xff00 fun
      | .ok v => .write 0 (v + 0x100) 0xff00 fun _ =>
          .write 8 (if v = 0 then 1 else 2) fullMask fun _ => .commit v
      | .error err => .giveUp err

theorem touches_neighbours_false {a : Addr} {n : Nat} (h : (neighbours false).Touches .zero a n) :
    a = 0 ∧ Word.bit 0xff n = true := by
  obtain ⟨e, he, htouches⟩ := h
  rcases List.mem_cons.1 he with rfl | he
  · exact ⟨htouches.1.symm, htouches.2⟩
  rcases List.mem_cons.1 he with rfl | he
  · exact ⟨htouches.1.symm, htouches.2⟩
  · cases he

theorem touches_neighbours_true {a : Addr} {n : Nat} (h : (neighbours true).Touches .zero a n) :
    a = 0 ∧ Word.bit 0xff00 n = true ∨ a = 8 := by
  obtain ⟨e, he, htouches⟩ := h
  rcases List.mem_cons.1 he with rfl | he
  · exact Or.inl ⟨htouches.1.symm, htouches.2⟩
  rcases List.mem_cons.1 he with rfl | he
  · exact Or.inl ⟨htouches.1.symm, htouches.2⟩
  rcases List.mem_cons.1 he with rfl | he
  · exact Or.inr htouches.1.symm
  · cases he

theorem neighbours_apart : Apart neighbours .zero := by
  have bytes : ∀ n, n < 64 → Word.bit 0xff n = true → ¬ Word.bit 0xff00 n = true := by decide
  have never {a : Addr} {n : Nat} (hn : n < 64) (first : (neighbours false).Touches .zero a n)
      (second : (neighbours true).Touches .zero a n) : False := by
    obtain ⟨rfl, hfirst⟩ := touches_neighbours_false first
    rcases touches_neighbours_true second with ⟨-, hsecond⟩ | h
    · exact bytes n hn hfirst hsecond
    · cases h
  intro i j hij a n hn hwrites htouches
  cases i <;> cases j
  · exact hij rfl
  · exact never hn hwrites.touches htouches
  · exact never hn htouches hwrites.touches
  · exact hij rfl

/-- The two blocks in turn: the second one begins and reads before the first one commits, and
commits after it. -/
def inTurn : List Bool := [false, true, true, false, false, false, true, true, true]

/-- Both commit, and the word ends with both bytes incremented. -/
theorem commute_neighbours : Apart neighbours .zero ∧
    (∀ i, Complete neighbours .zero inTurn i) ∧
    ∃ s, (init neighbours .zero).run inTurn = some s ∧ Outcome neighbours .zero inTurn s ∧
      s.memory.read 0 = 0x101 ∧ s.memory.read 8 = 1 := by
  obtain ⟨s, hrun, O⟩ := (commute neighbours_apart).1 inTurn
  have words : ((init neighbours .zero).run inTurn).map
      (fun s => (s.memory.read 0, s.memory.read 8)) = some (0x101, 1) := by
    decide +kernel
  rw [hrun, Option.map_some, Option.some.injEq, Prod.mk.injEq] at words
  refine ⟨neighbours_apart, ?_, s, hrun, O, words⟩
  intro i
  unfold Complete
  cases i <;> decide +kernel

end BlockTransactions

end HybridTM
