import HybridTM.Proofs.TxSystem

/-!
# Opacity of software transactions

In every reachable state each active transaction stands at one memory of the history that was
current at some moment since it began, and all it has read is what it would have read running alone
on that memory; a commit that publishes finds this to be the memory in front of it; and the
commits that published are a serial run in the order of the clock (`opacity`).
-/

set_option autoImplicit false

namespace HybridTM

/-! ## What is proved of the system -/

/-- Runs of accesses that follow one another: each agrees with the memory that those before it
leave behind. -/
def SerialFrom : Memory → List (List Access) → Memory → Prop
  | m, [], m' => m = m'
  | m, t :: ts, m' => Agrees t m ∧ SerialFrom (after t m) ts m'

namespace TxSystem

variable {ι : Type} [DecidableEq ι]

/-- What holds in every reachable state. -/
structure Opaque (m₀ : Memory) (s : TxSystem ι) : Prop where
  /-- The history begins with the initial memory. -/
  first : s.history.memory 0 = m₀
  /-- It ends with the current one. -/
  last : s.shared.memory = s.history.last
  /-- The clock counts the publications. -/
  clock : s.shared.clock.snapshot = stamp s.history.count
  /-- The count fits on the clock, so that no two memories have the same stamp. -/
  room : s.history.count < clockLimit
  /-- Each active transaction stands at the memory that its start shows, current at some moment
  since it began, and all it read agrees with that memory. -/
  attempts : ∀ i, (s.tx i).active = true → ∃ k, s.since i ≤ k ∧ k ≤ s.history.count ∧
    (s.tx i).start = stamp k ∧ Agrees (s.trace i) (s.history.memory k)
  /-- A commit that publishes finds the memory in front of it to be one that all reads agree with,
  and makes of it what the writes make of it. -/
  publishes : ∀ i kind tx shared, (s.tx i).commit s.shared = some (.ok kind, tx, shared) →
    kind.publishes = true → Agrees (s.trace i) s.shared.memory ∧
      shared.memory = after (s.trace i) s.shared.memory ∧
      tx.start = stamp (s.history.count + 1)
  /-- The history explains every commit. -/
  commits : ∀ c ∈ s.commits, c.Explained s.history
  /-- The commits that published did so in the order of the clock. -/
  ordered : (s.writers.map (·.ended)).Pairwise (· < ·)
  /-- They are a serial run from the initial memory to the current one. -/
  serial : SerialFrom m₀ (s.writers.map (·.trace)) s.shared.memory

end TxSystem

/-! ## The commits explain the history -/

theorem serialFrom_concat {m m' : Memory} {ts : List (List Access)} {t : List Access} :
    SerialFrom m (ts ++ [t]) m' ↔ ∃ m₁, SerialFrom m ts m₁ ∧ Agrees t m₁ ∧ after t m₁ = m' := by
  induction ts generalizing m with
  | nil => simp [SerialFrom]
  | cons u ts ih =>
    simp only [List.cons_append, SerialFrom, ih]
    constructor
    · rintro ⟨hu, m₁, hts, ht⟩
      exact ⟨m₁, ⟨hu, hts⟩, ht⟩
    · rintro ⟨m₁, ⟨hu, hts⟩, ht⟩
      exact ⟨hu, m₁, hts, ht⟩

/-- What a history explains, every longer history explains. -/
theorem CommitRecord.Explained.publish {h : History} {c : CommitRecord} (hc : c.Explained h)
    (m : Memory) : c.Explained (h.publish m) := by
  have writer (w : c.began ≤ c.ended ∧ c.ended < h.count ∧ c.start = stamp (c.ended + 1) ∧
      Agrees c.trace (h.memory c.ended) ∧
      h.memory (c.ended + 1) = after c.trace (h.memory c.ended)) :
      c.began ≤ c.ended ∧ c.ended < (h.publish m).count ∧ c.start = stamp (c.ended + 1) ∧
        Agrees c.trace ((h.publish m).memory c.ended) ∧
        (h.publish m).memory (c.ended + 1) = after c.trace ((h.publish m).memory c.ended) := by
    obtain ⟨hbegan, hended, hstart, hagrees, hafter⟩ := w
    rw [History.memory_publish_of_le hended, History.memory_publish_of_le (Nat.le_of_lt hended)]
    exact ⟨hbegan, Nat.lt_succ_of_lt hended, hstart, hagrees, hafter⟩
  unfold Explained at hc ⊢
  cases hkind : c.kind with
  | readOnly =>
    simp only [hkind] at hc ⊢
    obtain ⟨hreads, hended, k, hbegan, hk, hstart, hagrees⟩ := hc
    refine ⟨hreads, Nat.le_succ_of_le hended, k, hbegan, hk, hstart, ?_⟩
    rwa [History.memory_publish_of_le (Nat.le_trans hk hended)]
  | readWrite =>
    simp only [hkind] at hc ⊢
    exact writer hc
  | serial =>
    simp only [hkind] at hc ⊢
    exact writer hc
  | exclusive =>
    simp only [hkind] at hc

namespace TxSystem

variable {ι : Type} [DecidableEq ι]

/-- The commits so far explain the history. -/
structure Recorded (m₀ : Memory) (s : TxSystem ι) : Prop where
  /-- The history begins with the initial memory. -/
  first : s.history.memory 0 = m₀
  /-- It explains every commit. -/
  explained : ∀ c ∈ s.commits, c.Explained s.history
  /-- Those that published are numbered in order. -/
  ordered : (s.writers.map (·.ended)).Pairwise (· < ·)
  /-- None of them is numbered past the last publication. -/
  below : ∀ n ∈ s.writers.map (·.ended), n < s.history.count
  /-- They are a serial run. -/
  serial : SerialFrom m₀ (s.writers.map (·.trace)) s.shared.memory

omit [DecidableEq ι] in
theorem recorded_init (m : Memory) : Recorded m (init m : TxSystem ι) where
  first := rfl
  explained _ hc := absurd hc List.not_mem_nil
  ordered := List.Pairwise.nil
  below _ hn := absurd hn List.not_mem_nil
  serial := rfl

omit [DecidableEq ι] in
theorem writers_concat {s s' : TxSystem ι} {c : CommitRecord}
    (h : s'.commits = s.commits ++ [c]) :
    s'.writers = s.writers ++ if c.kind.publishes then [c] else [] := by
  unfold writers
  rw [h, List.filter_append, List.filter_cons, List.filter_nil]

omit [DecidableEq ι] in
theorem Recorded.step {m₀ : Memory} {s s' : TxSystem ι} {held : Bool} (R : Recorded m₀ s)
    (I : Standing s held) (E : Effect s s') : Recorded m₀ s' := by
  cases E with
  | quiet history memory commits =>
    have hw : s'.writers = s.writers := by unfold writers; rw [commits]
    exact ⟨by rw [history]; exact R.first, by rw [commits, history]; exact R.explained,
      by rw [hw]; exact R.ordered, by rw [hw, history]; exact R.below,
      by rw [hw, memory]; exact R.serial⟩
  | readOnly c kind explained history memory commits =>
    have hw : s'.writers = s.writers := by
      rw [writers_concat commits, kind]
      exact List.append_nil _
    refine ⟨by rw [history]; exact R.first, ?_, by rw [hw]; exact R.ordered,
      by rw [hw, history]; exact R.below, by rw [hw, memory]; exact R.serial⟩
    intro d hd
    rw [commits, List.mem_append, List.mem_singleton] at hd
    rw [history]
    rcases hd with hd | rfl
    · exact R.explained d hd
    · exact explained
  | publish c kind began ended start agrees memory history commits =>
    have hw : s'.writers = s.writers ++ [c] := by
      rw [writers_concat commits, kind]
      rfl
    have hlast : s'.history.memory (s.history.count + 1) = s'.shared.memory := by
      rw [history]
      exact History.last_publish _
    have hbefore : s'.history.memory s.history.count = s.history.last := by
      rw [history]
      exact History.memory_publish_of_le (Nat.le_refl _) _
    have hcount : s'.history.count = s.history.count + 1 := by rw [history]; rfl
    have hc : c.began ≤ c.ended ∧ c.ended < s'.history.count ∧ c.start = stamp (c.ended + 1) ∧
        Agrees c.trace (s'.history.memory c.ended) ∧
        s'.history.memory (c.ended + 1) = after c.trace (s'.history.memory c.ended) := by
      rw [ended, hlast, hbefore, hcount, memory, I.memory_eq_last, ← ended]
      exact ⟨began, Nat.lt_succ_self _, start, agrees, rfl⟩
    refine ⟨?_, ?_, ?_, ?_, ?_⟩
    · rw [history, History.memory_publish_of_le (Nat.zero_le _)]
      exact R.first
    · intro d hd
      rw [commits, List.mem_append, List.mem_singleton] at hd
      rcases hd with hd | rfl
      · rw [history]
        exact (R.explained d hd).publish _
      · unfold CommitRecord.Explained
        cases hkind : d.kind <;> rw [hkind] at kind <;> first | exact hc | cases kind
    · rw [hw, List.map_append, List.pairwise_append]
      refine ⟨R.ordered, List.pairwise_singleton _ _, ?_⟩
      intro n hn l hl
      rw [List.map_singleton, List.mem_singleton] at hl
      rw [hl, ended]
      exact R.below n hn
    · intro n hn
      rw [hw, List.map_append, List.mem_append, List.map_singleton, List.mem_singleton] at hn
      rw [hcount]
      rcases hn with hn | rfl
      · exact Nat.lt_succ_of_lt (R.below n hn)
      · rw [ended]
        exact Nat.lt_succ_self _
    · rw [hw, List.map_append, List.map_singleton, serialFrom_concat]
      exact ⟨s.shared.memory, R.serial, by rw [I.memory_eq_last]; exact agrees, memory.symm⟩
  | abandon history memory commits =>
    have hw : s'.writers = s.writers := by unfold writers; rw [commits]
    refine ⟨?_, ?_, by rw [hw]; exact R.ordered, ?_, by rw [hw, memory]; exact R.serial⟩
    · rw [history, History.memory_publish_of_le (Nat.zero_le _)]
      exact R.first
    · intro d hd
      rw [commits] at hd
      rw [history]
      exact (R.explained d hd).publish _
    · intro n hn
      rw [hw] at hn
      rw [history]
      exact Nat.lt_succ_of_lt (R.below n hn)

/-- Every reachable state is standing and its commits explain its history. -/
theorem standing_of_reachable {m₀ : Memory} {s : TxSystem ι} (h : Reachable m₀ s) :
    (∃ held, Standing s held) ∧ Recorded m₀ s := by
  induction h with
  | refl => exact ⟨⟨false, .init m₀⟩, recorded_init m₀⟩
  | tail _ hstep ih =>
    obtain ⟨⟨held, I⟩, R⟩ := ih
    obtain ⟨I', E⟩ := I.step hstep
    exact ⟨I', R.step I E⟩

/-- In every reachable state the attempts that are active are opaque and the commits that
succeeded are serial. -/
theorem opacity {m₀ : Memory} {s : TxSystem ι} (h : Reachable m₀ s) : Opaque m₀ s := by
  obtain ⟨⟨held, I⟩, R⟩ := standing_of_reachable h
  refine ⟨R.first, I.memory_eq_last, ?_, I.shows.room, ?_, ?_, R.explained, R.ordered, R.serial⟩
  · rw [I.shows.clock, Clock.snapshot_of]
  · intro i _
    obtain ⟨k, A⟩ := I.attempt i
    refine ⟨k, A.since_le, A.le_count, ?_, A.agrees⟩
    by_cases hserial : (s.tx i).role = .serial
    · exact (A.serial hserial).2.1
    · exact (A.optimistic (I.optimistic hserial)).1
  · intro i kind tx shared hc hkind
    obtain ⟨k, A⟩ := I.attempt i
    rcases A.commit I.shows hc with ⟨e, herr, -⟩ | ⟨hok, -⟩ | ⟨kind', n, -, -, hlast, rfl, rfl⟩ |
      ⟨hok, -⟩
    · cases herr
    · cases hok; cases hkind
    · rw [I.memory_eq_last]
      exact ⟨hlast, rfl, rfl⟩
    · cases hok; cases hkind

theorem steps_of_run {s s' : TxSystem ι} {calls : List (ι × TxCall)}
    (h : s.run calls = some s') : Relation.ReflTransGen Step s s' := by
  refine reflTransGen_of_run (fun _ => rfl) (fun s c calls s' h => ?_) h
  obtain ⟨s₁, hcall, hrest⟩ := Option.bind_eq_some_iff.1 h
  split at hrest
  · next room => exact ⟨s₁, .call c.1 c.2 hcall room, hrest⟩
  · cases hrest

/-- A reader that began before two writers, one of them serial, and read before, between and after
their commits. -/
theorem opacity_of_reader_among_writers :
    ∃ s : TxSystem Bool, (init .zero).run [(false, .begin), (false, .read 0 fullMask),
        (true, .begin), (true, .write 8 7 fullMask), (true, .commit), (false, .read 8 0xFF),
        (true, .beginSerial), (true, .read 8 fullMask), (true, .write 0 9 fullMask),
        (false, .write 16 1 fullMask), (true, .commit), (false, .read 16 fullMask)] = some s ∧
      Reachable .zero s ∧ (s.tx false).active = true ∧ s.commits.length = 2 ∧
      s.history.count = 2 ∧ Opaque .zero s := by
  have facts : ((init .zero : TxSystem Bool).run [(false, .begin), (false, .read 0 fullMask),
      (true, .begin), (true, .write 8 7 fullMask), (true, .commit), (false, .read 8 0xFF),
      (true, .beginSerial), (true, .read 8 fullMask), (true, .write 0 9 fullMask),
      (false, .write 16 1 fullMask), (true, .commit), (false, .read 16 fullMask)]).map
        (fun s => ((s.tx false).active, s.commits.length, s.history.count)) =
      some (true, 2, 2) := by
    decide +kernel
  obtain ⟨s, hrun, hs⟩ := Option.map_eq_some_iff.1 facts
  obtain ⟨hactive, hs⟩ := Prod.mk.inj hs
  obtain ⟨hcommits, hcount⟩ := Prod.mk.inj hs
  have hreach : Reachable .zero s := steps_of_run hrun
  exact ⟨s, hrun, hreach, hactive, hcommits, hcount, opacity hreach⟩

end TxSystem

end HybridTM
