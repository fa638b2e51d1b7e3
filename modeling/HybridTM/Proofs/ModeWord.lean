import HybridTM.Hybrid.Phase

/-!
# The mode word and its contents

A snapshot whose counts fit in 31 bits is read back from its word unchanged (`decode_encode`), and
every errand keeps the counts in this range (`Errand.inRange`). So the word and its contents
determine each other along every run, and a swap is a swap of contents.
-/

set_option autoImplicit false

namespace HybridTM

namespace ModeSnapshot

/-- Both counts fit in their fields. -/
structure InRange (s : ModeSnapshot) : Prop where
  /-- The threads with epochs of their own. -/
  deferred : s.deferred < countLimit
  /-- The transactions that joined. -/
  undeferred : s.undeferred < countLimit

theorem inRange_initial : initial.InRange := ⟨by decide, by decide⟩

theorem inRange_locked : locked.InRange := ⟨by decide, by decide⟩

/-- Every word holds counts that fit. -/
theorem inRange_decode (w : Word) : (decode w).InRange := by
  have hw : w.toNat < 2 ^ 64 := w.toNat_lt
  constructor
  · exact Nat.mod_lt _ (by decide)
  · simp only [decode, countLimit]
    omega

/-- The fields of a word lie side by side. -/
theorem toNat_encode {s : ModeSnapshot} (h : s.InRange) :
    s.encode.toNat = s.mode.bits + 4 * s.deferred + 4 * countLimit * s.undeferred := by
  have hd := h.deferred
  have hu := h.undeferred
  have hm := s.mode.bits_lt
  unfold encode
  rw [Nat.mod_eq_of_lt hd, Nat.mod_eq_of_lt hu]
  apply UInt64.toNat_ofNat_of_lt'
  simp only [countLimit, UInt64.size] at hd hu ⊢
  omega

/-- The contents are read back from their word. -/
theorem decode_encode {s : ModeSnapshot} (h : s.InRange) : decode s.encode = s := by
  have hd := h.deferred
  have hm := s.mode.bits_lt
  have hmode : (decode s.encode).mode = s.mode := by
    have hbits : s.encode.toNat % 4 = s.mode.bits := by
      rw [toNat_encode h, countLimit]
      omega
    rw [decode, hbits, Mode.ofBits_bits]
  have hdeferred : (decode s.encode).deferred = s.deferred := by
    simp only [decode, toNat_encode h, countLimit] at hd ⊢
    omega
  have hundeferred : (decode s.encode).undeferred = s.undeferred := by
    simp only [decode, toNat_encode h, countLimit] at hd ⊢
    omega
  calc decode s.encode
      = ⟨(decode s.encode).mode, (decode s.encode).deferred, (decode s.encode).undeferred⟩ := rfl
    _ = ⟨s.mode, s.deferred, s.undeferred⟩ := by rw [hmode, hdeferred, hundeferred]

/-- Contents in range have the same word only if they are the same. -/
theorem encode_inj {s s' : ModeSnapshot} (h : s.InRange) (h' : s'.InRange) :
    s.encode = s'.encode ↔ s = s' := by
  constructor
  · intro he
    rw [← decode_encode h, he, decode_encode h']
  · intro he
    rw [he]

/-! ## Transitions -/

variable {s s' : ModeSnapshot}

theorem enterDeferred?_eq_some_iff :
    s.enterDeferred? = some s' ↔
      s.mode ≠ .glock ∧ s.deferred ≠ maxCount ∧ s' = { s with deferred := s.deferred + 1 } := by
  unfold enterDeferred?
  split
  · next h => exact ⟨fun he => (by cases he), fun ⟨hm, hd, _⟩ => (h.elim hm hd).elim⟩
  · next h => simp [not_or.1 h, eq_comm]

theorem flipToSoftware?_eq_some_iff :
    s.flipToSoftware? = some s' ↔ s.mode = .hw ∧ s.deferred ≠ 0 ∧ s' = { s with mode := .sw } := by
  unfold flipToSoftware?
  split
  · next h => exact ⟨fun he => (by cases he), fun ⟨hm, hd, _⟩ => (h.elim (· hm) hd).elim⟩
  · next h =>
    obtain ⟨hm, hd⟩ : s.mode = .hw ∧ s.deferred ≠ 0 := by simpa [not_or] using h
    simp [hm, hd, eq_comm]

theorem enterUndeferred?_eq_some_iff :
    s.enterUndeferred? = some s' ↔ s.mode = .sw ∧ s.deferred ≠ 0 ∧ s.undeferred ≠ maxCount ∧
      s' = { s with undeferred := s.undeferred + 1 } := by
  unfold enterUndeferred?
  split
  · next h =>
    exact ⟨fun he => (by cases he), fun ⟨hm, hd, hu, _⟩ => (h.elim (· hm) (·.elim hd hu)).elim⟩
  · next h =>
    obtain ⟨hm, hd, hu⟩ : s.mode = .sw ∧ s.deferred ≠ 0 ∧ s.undeferred ≠ maxCount := by
      simpa [not_or] using h
    simp [hm, hd, hu, eq_comm]

theorem leaveDeferred?_eq_some_iff :
    s.leaveDeferred? = some s' ↔
      s.deferred ≠ 0 ∧ s' = ({ s with deferred := s.deferred - 1 } : ModeSnapshot).drain := by
  unfold leaveDeferred?
  split <;> simp_all [eq_comm]

theorem leaveUndeferred?_eq_some_iff :
    s.leaveUndeferred? = some s' ↔
      s.undeferred ≠ 0 ∧ s' = ({ s with undeferred := s.undeferred - 1 } : ModeSnapshot).drain := by
  unfold leaveUndeferred?
  split <;> simp_all [eq_comm]

theorem acquireLock?_eq_some_iff : s.acquireLock? = some s' ↔ s = initial ∧ s' = locked := by
  unfold acquireLock?
  split <;> simp_all [eq_comm]

/-- Draining changes the mode only, and only when nobody is left. -/
theorem drain_cases (s : ModeSnapshot) :
    s.drain = ⟨.hw, 0, 0⟩ ∧ s.deferred = 0 ∧ s.undeferred = 0 ∨
      s.drain = s ∧ (s.deferred ≠ 0 ∨ s.undeferred ≠ 0) := by
  rcases s with ⟨mode, deferred, undeferred⟩
  by_cases h : deferred = 0 ∧ undeferred = 0
  · obtain ⟨rfl, rfl⟩ := h
    exact Or.inl ⟨rfl, rfl, rfl⟩
  · right
    simp only [drain, isQuiescent, Bool.and_eq_true, beq_iff_eq, if_neg h, true_and]
    omega

end ModeSnapshot

/-- Giving the global lock back. -/
theorem Errand.unlock_change?_eq_some_iff {ending : Ending} {s s' : ModeSnapshot} :
    (Errand.unlock ending).change? s = some s' ↔ s = .locked ∧ s' = .initial := by
  simp only [Errand.change?]
  split <;> simp_all [eq_comm]

/-- Every errand keeps the counts in range. -/
theorem Errand.inRange {errand : Errand} {s s' : ModeSnapshot} (hs : s.InRange)
    (h : errand.change? s = some s') : s'.InRange := by
  obtain ⟨hd, hu⟩ := hs
  have drained {t : ModeSnapshot} (ht : t.InRange) : t.drain.InRange := by
    rcases t.drain_cases with ⟨ht', -⟩ | ⟨ht', -⟩ <;> rw [ht']
    · exact ModeSnapshot.inRange_initial
    · exact ht
  have room {n : Nat} (hn : n < ModeSnapshot.countLimit) (hmax : n ≠ ModeSnapshot.maxCount) :
      n + 1 < ModeSnapshot.countLimit := by
    simp only [ModeSnapshot.maxCount, ModeSnapshot.countLimit] at hn hmax ⊢
    omega
  cases errand with
  | register failures =>
    obtain ⟨-, hmax, rfl⟩ := ModeSnapshot.enterDeferred?_eq_some_iff.1 h
    exact ⟨room hd hmax, hu⟩
  | flip failures =>
    obtain ⟨-, -, rfl⟩ := ModeSnapshot.flipToSoftware?_eq_some_iff.1 h
    exact ⟨hd, hu⟩
  | join failures =>
    obtain ⟨-, -, hmax, rfl⟩ := ModeSnapshot.enterUndeferred?_eq_some_iff.1 h
    exact ⟨hd, room hu hmax⟩
  | lock failures =>
    obtain ⟨-, rfl⟩ := ModeSnapshot.acquireLock?_eq_some_iff.1 h
    exact ModeSnapshot.inRange_locked
  | leave ending =>
    obtain ⟨-, rfl⟩ := ModeSnapshot.leaveUndeferred?_eq_some_iff.1 h
    exact drained ⟨hd, Nat.lt_of_le_of_lt (Nat.sub_le _ _) hu⟩
  | endEpoch ending =>
    obtain ⟨-, rfl⟩ := ModeSnapshot.leaveDeferred?_eq_some_iff.1 h
    exact drained ⟨Nat.lt_of_le_of_lt (Nat.sub_le _ _) hd, hu⟩
  | unlock ending =>
    obtain ⟨-, rfl⟩ := Errand.unlock_change?_eq_some_iff.1 h
    exact ModeSnapshot.inRange_initial

end HybridTM
