import HybridTM.Proofs.Attempt
import HybridTM.Proofs.World

/-!
# Serial orders of calls

Calls that run one after the other, each alone on the memory that those before it leave behind
(`Replays`). A serial order explains a history when it passes through all its memories
(`Passes`): a call that saw one of them and wrote nothing can then be inserted there
(`Passes.insert`), and a call that saw the last one comes at the end (`Passes.publish`,
`Passes.amend`).
-/

set_option autoImplicit false

namespace HybridTM

/-- The words that are not the mode word. -/
def Runtime.IsData (a : Addr) : Prop := a ≠ modeAddr

/-- What a call gives when its final invocation runs alone, with the reads failing that failed in
it. -/
def Completed.replay {ι : Type} (c : Completed ι) (m : Memory) : Option Word × Memory :=
  c.program.runFailing c.failures m

/-- What a call gives when its final invocation runs alone. -/
def Completed.runAlone {ι : Type} (c : Completed ι) (m : Memory) : Option Word × Memory :=
  c.program.run m

/-- No read of the final invocation failed. -/
def Completed.Unfailing {ι : Type} (c : Completed ι) : Prop := ∀ f ∈ c.failures, f = none

/-- Run in this order from one memory, the calls give the values they returned and lead to another
memory. -/
def Replays {ι : Type} (run : Completed ι → Memory → Option Word × Memory) :
    Memory → List (Completed ι) → Memory → Prop
  | m, [], m' => m = m'
  | m, c :: cs, m' => (run c m).1 = some c.value ∧ Replays run (run c m).2 cs m'

/-- The order passes through all memories of a history, as far as words of data go, from its first
to its last. -/
structure Passes {ι : Type} (m₀ : Memory) (order : List (Completed ι)) (m : Memory) (h : History) :
    Prop where
  /-- It ends at the last one. -/
  ends : Memory.SameOn Runtime.IsData m h.last
  /-- It can be cut at each of them. -/
  cut : ∀ k, k ≤ h.count → ∃ before next m₁, order = before ++ next ∧
    Replays Completed.replay m₀ before m₁ ∧ Replays Completed.replay m₁ next m ∧
    Memory.SameOn Runtime.IsData m₁ (h.memory k)

section

variable {ι : Type} {m₀ m m' m'' : Memory} {cs cs' order : List (Completed ι)} {c : Completed ι}
  {h : History}

theorem replays_append {run : Completed ι → Memory → Option Word × Memory} :
    Replays run m (cs ++ cs') m'' ↔ ∃ m', Replays run m cs m' ∧ Replays run m' cs' m'' := by
  induction cs generalizing m with
  | nil => simp [Replays]
  | cons c cs ih =>
    simp only [List.cons_append, Replays, ih]
    constructor
    · rintro ⟨hc, m', hcs, hcs'⟩
      exact ⟨m', ⟨hc, hcs⟩, hcs'⟩
    · rintro ⟨m', ⟨hc, hcs⟩, hcs'⟩
      exact ⟨hc, m', hcs, hcs'⟩

theorem replays_singleton {run : Completed ι → Memory → Option Word × Memory} :
    Replays run m [c] m' ↔ run c m = (some c.value, m') := by
  simp only [Replays, Prod.ext_iff]

theorem exists_replays_cons {run : Completed ι → Memory → Option Word × Memory} :
    (∃ m', Replays run m (c :: cs) m') ↔
      (run c m).1 = some c.value ∧ ∃ m', Replays run (run c m).2 cs m' := by
  simp only [Replays, exists_and_left]

/-- Whether calls give their values in an order can be tried. -/
instance decidableReplays (run : Completed ι → Memory → Option Word × Memory) :
    ∀ m cs, Decidable (∃ m', Replays run m cs m')
  | m, [] => isTrue ⟨m, rfl⟩
  | m, c :: cs =>
      have := decidableReplays run (run c m).2 cs
      decidable_of_iff _ exists_replays_cons.symm

theorem Replays.unique {run : Completed ι → Memory → Option Word × Memory}
    (h : Replays run m cs m') (h' : Replays run m cs m'') : m' = m'' := by
  induction cs generalizing m with
  | nil => exact h.symm.trans h'
  | cons c cs ih => exact ih h.2 h'.2

/-- Where no read failed, the calls give the same when they simply run alone. -/
theorem Replays.runAlone (R : Replays Completed.replay m cs m') (hcs : ∀ c ∈ cs, c.Unfailing) :
    Replays Completed.runAlone m cs m' := by
  induction cs generalizing m with
  | nil => exact R
  | cons c cs ih =>
    have hc : c.replay m = c.runAlone m :=
      Program.runFailing_of_forall_none (hcs c List.mem_cons_self) c.program m
    obtain ⟨hvalue, hrest⟩ := R
    rw [hc] at hvalue hrest
    exact ⟨hvalue, ih hrest fun d hd => hcs d (List.mem_cons_of_mem c hd)⟩

namespace Passes

/-- The whole order is a serial run. -/
theorem replays (P : Passes m₀ order m h) : Replays Completed.replay m₀ order m := by
  obtain ⟨before, next, m₁, rfl, hbefore, hnext, -⟩ := P.cut 0 (Nat.zero_le _)
  exact replays_append.2 ⟨m₁, hbefore, hnext⟩

theorem start (m : Memory) : Passes m ([] : List (Completed ι)) m (.start m) where
  ends := .refl _ m
  cut _ _ := ⟨[], [], m, rfl, rfl, rfl, .refl _ m⟩

/-- Another memory with the same words of data may be published. -/
theorem republish (P : Passes m₀ order m h) (hm : Memory.SameOn Runtime.IsData m m') :
    Passes m₀ order m (h.publish m') where
  ends := by
    rw [History.last_publish]
    exact hm
  cut k hk := by
    -- The whole order leads to the new memory; the cuts at the others stay.
    rcases Nat.lt_or_ge h.count k with hlt | hle
    · obtain rfl : k = h.count + 1 := Nat.le_antisymm hk hlt
      refine ⟨order, [], m, (List.append_nil _).symm, P.replays, rfl, ?_⟩
      have hlast : (h.publish m').memory (h.count + 1) = m' := History.last_publish m'
      rw [hlast]
      exact hm
    · rw [History.memory_publish_of_le hle]
      exact P.cut k hle

/-- A call that runs from the last memory comes at the end and publishes another one. -/
theorem publish (P : Passes m₀ order m h) (hc : c.replay m = (some c.value, m'))
    (hm : Memory.SameOn Runtime.IsData m' m'') :
    Passes m₀ (order ++ [c]) m' (h.publish m'') where
  ends := by
    rw [History.last_publish]
    exact hm
  cut k hk := by
    -- At the others the call joins what comes after the cut.
    rcases Nat.lt_or_ge h.count k with hlt | hle
    · obtain rfl : k = h.count + 1 := Nat.le_antisymm hk hlt
      refine ⟨order ++ [c], [], m', (List.append_nil _).symm, ?_, rfl, ?_⟩
      · exact replays_append.2 ⟨m, P.replays, replays_singleton.2 hc⟩
      · have hlast : (h.publish m'').memory (h.count + 1) = m'' := History.last_publish m''
        rw [hlast]
        exact hm
    · obtain ⟨before, next, m₁, rfl, hbefore, hnext, hsame⟩ := P.cut k hle
      refine ⟨before, next ++ [c], m₁, List.append_assoc _ _ _, hbefore, ?_, ?_⟩
      · exact replays_append.2 ⟨m, hnext, replays_singleton.2 hc⟩
      · rw [History.memory_publish_of_le hle]
        exact hsame

/-- A call that runs from the last memory comes at the end and puts another one in its place. -/
theorem amend (P : Passes m₀ order m h) (hc : c.replay m = (some c.value, m'))
    (hm : Memory.SameOn Runtime.IsData m' m'') :
    Passes m₀ (order ++ [c]) m' (h.amend m'') where
  ends := by
    rw [History.last_amend]
    exact hm
  cut k hk := by
    -- The memory that was the last one is gone, so that nothing is cut there.
    rcases Nat.lt_or_ge k h.count with hlt | hge
    · obtain ⟨before, next, m₁, rfl, hbefore, hnext, hsame⟩ := P.cut k (Nat.le_of_lt hlt)
      refine ⟨before, next ++ [c], m₁, List.append_assoc _ _ _, hbefore, ?_, ?_⟩
      · exact replays_append.2 ⟨m, hnext, replays_singleton.2 hc⟩
      · rw [History.memory_amend_of_lt hlt]
        exact hsame
    · obtain rfl : k = h.count := Nat.le_antisymm hk hge
      refine ⟨order ++ [c], [], m', (List.append_nil _).symm, ?_, rfl, ?_⟩
      · exact replays_append.2 ⟨m, P.replays, replays_singleton.2 hc⟩
      · have hlast : (h.amend m'').memory h.count = m'' := History.last_amend m''
        rw [hlast]
        exact hm

/-- A call that runs from one of the memories and leaves it as it is can be inserted there. -/
theorem insert (P : Passes m₀ order m h) {k : Nat} (hk : k ≤ h.count)
    (hc : ∀ m₁, Memory.SameOn Runtime.IsData m₁ (h.memory k) → c.replay m₁ = (some c.value, m₁)) :
    ∃ order', order'.Perm (c :: order) ∧ Passes m₀ order' m h := by
  obtain ⟨before, next, m₁, rfl, hbefore, hnext, hsame⟩ := P.cut k hk
  have hcall := hc m₁ hsame
  have hnext' : Replays Completed.replay m₁ (c :: next) m :=
    replays_append.2 ⟨m₁, replays_singleton.2 hcall, hnext⟩
  refine ⟨before ++ c :: next, List.perm_middle, P.ends, ?_⟩
  intro l hl
  obtain ⟨a, b, m₂, heq, ha, hb, hsame₂⟩ := P.cut l hl
  -- The cut at the other memory lies after or before the place of the call.
  rcases List.append_eq_append_iff.1 heq with ⟨d, rfl, rfl⟩ | ⟨d, rfl, rfl⟩
  · obtain ⟨m₃, hbefore', hd⟩ := replays_append.1 ha
    obtain rfl := hbefore.unique hbefore'
    refine ⟨before ++ c :: d, b, m₂, by simp, ?_, hb, hsame₂⟩
    exact replays_append.2 ⟨m₁, hbefore, replays_append.2 ⟨m₁, replays_singleton.2 hcall, hd⟩⟩
  · obtain ⟨m₃, ha', hd⟩ := replays_append.1 hbefore
    obtain rfl := ha.unique ha'
    refine ⟨a, d ++ c :: next, m₂, by simp, ha, ?_, hsame₂⟩
    exact replays_append.2 ⟨m₁, hd, hnext'⟩

end Passes

end

end HybridTM
